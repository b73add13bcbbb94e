import GrammarGraph.Proofs.Conservation
import GrammarGraph.Proofs.Environment
import GrammarGraph.Proofs.Gaps

/-!
# What an error blames

A search that fails has pulled some tokens, and knows which of them it could put on a path together.
A run that blames a token blames the last one it pulled: all before it were on one path when it was
pulled, and unless the input ends behind it, it never was with them.  A run that misses a token had
all tokens of the text on its path (`Parser.blames_of_searchWithin`).
-/

namespace GrammarGraph

namespace Search

variable {g : Grammar} {full : Bool} {s s' v : Search} {token : Option Token} {e : PathElement}
  {rest removed : List PathElement} {n : NodeId} {pending pending' : List Token}

/-! ## Tokens on the path in the course of an iteration -/

theorem tokens_push_none (g : Grammar) (s : Search) (n : NodeId) :
    (s.push g n none).path.tokens = s.path.tokens := by
  rw [Path.tokens_eq, Path.tokens_eq, elements_push, Path.tokensOf_cons]
  exact List.append_nil _

theorem tokens_of_elements (h : s.path.elements = e :: rest) :
    s.path.tokens = s.pop.path.tokens ++ e.token.toList := by
  rw [Path.tokens_eq, Path.tokens_eq, elements_pop, h, List.tail_cons, Path.tokensOf_cons]

theorem tokens_pop_prefix (s : Search) : s.pop.path.tokens <+: s.path.tokens := by
  cases hels : s.path.elements with
  | nil =>
    rw [Path.tokens_eq, Path.tokens_eq, elements_pop, hels]
    exact List.prefix_rfl
  | cons e rest =>
    rw [tokens_of_elements hels]
    exact List.prefix_append _ _

/-- Until a descent takes the token, the tokens on the path stay the same. -/
theorem Descends.tokens_eq (h : Descends g token s v) : v.path.tokens = s.path.tokens := by
  induction h with
  | here | wired | released => rfl
  | popped ht he =>
    obtain ⟨rest, hels⟩ := exists_rest ht
    obtain ⟨hnone, -⟩ := isSlot_of_expected? ht he
    rw [tokens_of_elements hels, hnone, Option.toList_none, List.append_nil]
  | step _ _ _ _ _ _ ih => rw [ih, tokens_push_none]
  | failed =>
    rw [pop_push_none]

/-- Looking for a sibling of the tip adds no token. -/
theorem Switches.tokens_prefix (h : Switches g s v) (hs : 2 ≤ s.graph.size)
    (hels : s.path.elements = e :: rest) : v.path.tokens <+: s.path.tokens := by
  cases h with
  | popped | wired | released => exact s.tokens_pop_prefix
  | switched pending =>
    rw [switchSibling_eq hs hels]
    split
    · rw [tokens_push_none]
      exact s.tokens_pop_prefix
    · rw [Path.tokens_eq, Path.tokens_eq, elements_push, elements_pop, hels, List.tail_cons]

/-- Putting back what was removed adds no other tokens. -/
theorem Restores.tokens_prefix (h : Restores g removed s v) :
    v.path.tokens <+: Path.tokensOf (removed.reverse ++ s.path.elements) := by
  induction h with
  | here =>
    rw [Path.tokens_eq, Path.tokensOf, Path.tokensOf, List.reverse_append, List.filterMap_append]
    exact List.prefix_append _ _
  | step _ ih =>
    rwa [List.reverse_cons, List.append_assoc, List.singleton_append]

theorem Backtracks.tokens_prefix (h : Backtracks g full s removed v) (hs : 2 ≤ s.graph.size) :
    v.path.tokens <+: Path.tokensOf (removed.reverse ++ s.path.elements) := by
  have hown : ∀ {s : Search} {removed : List PathElement},
      s.path.tokens <+: Path.tokensOf (removed.reverse ++ s.path.elements) := fun {s removed} =>
    Restores.tokens_prefix (g := g) .here
  induction h with
  | switching hlength hswitches =>
    obtain ⟨e, rest, hels⟩ := List.exists_cons_of_length_pos (lt_trans Nat.zero_lt_one hlength)
    exact (hswitches.tokens_prefix hs hels).trans hown
  | @back s s' v e pending pending' removed hlength hswitch htip _ _ ih =>
    obtain ⟨e', rest, hels⟩ := List.exists_cons_of_length_pos (lt_trans Nat.zero_lt_one hlength)
    obtain rfl := eq_of_switchSibling hs hels hswitch
    obtain rfl : e' = e := Option.some.inj htip
    have hrest := ih hs
    rwa [elements_pop, elements_push, List.tail_cons, elements_pop, hels, List.tail_cons,
      List.reverse_cons, List.append_assoc, List.singleton_append, ← hels] at hrest
  | exhausted _ hrestores => exact hrestores.tokens_prefix
  | @barred s s' v e pending pending' removed hlength hswitch _ _ _ hrestores =>
    obtain ⟨e', rest, hels⟩ := List.exists_cons_of_length_pos (lt_trans Nat.zero_lt_one hlength)
    obtain rfl := eq_of_switchSibling hs hels hswitch
    have hfront := hrestores.tokens_prefix
    rwa [elements_push, elements_pop, hels, List.tail_cons, ← hels] at hfront

/-! ## Giving up -/

/-- Putting back what was removed takes its tokens off the pending ones again. -/
theorem restore_eq {removed : List PathElement} {s : Search}
    (h : restore g removed s (removed.filterMap (·.token) ++ pending) = (s', pending')) :
    pending' = pending ∧ s'.path.elements = removed.reverse ++ s.path.elements := by
  induction removed generalizing s with
  | nil =>
    obtain ⟨rfl, rfl⟩ := Prod.mk.inj h
    exact ⟨rfl, rfl⟩
  | cons e removed ih =>
    have htail : (if e.token.isSome then ((e :: removed).filterMap (·.token) ++ pending).tail
        else (e :: removed).filterMap (·.token) ++ pending) =
          removed.filterMap (·.token) ++ pending := by
      rw [List.filterMap_cons]
      cases e.token <;> rfl
    rw [restore, htail] at h
    obtain ⟨hpending, helements⟩ := ih h
    refine ⟨hpending, ?_⟩
    rw [helements, elements_push, List.reverse_cons, List.append_assoc, List.singleton_append]

theorem backtrackFrom_restores {fuel : Nat} {s : Search} (removed : List PathElement)
    (hs : 2 ≤ s.graph.size)
    (h : backtrackFrom g full fuel s (removed.filterMap (·.token) ++ pending) removed =
      (false, s', pending')) :
    pending' = pending ∧ s'.path.elements = removed.reverse ++ s.path.elements := by
  induction fuel generalizing s removed with
  | zero => exact restore_eq (Prod.mk.inj h).2
  | succ fuel ih =>
    cases hels : s.path.elements with
    | nil =>
      rw [backtrackFrom, if_pos (by rw [Path.length, hels]; exact Nat.zero_le 1)] at h
      rw [← hels]
      exact restore_eq (Prod.mk.inj h).2
    | cons e rest =>
      rw [backtrackFrom_succ hs hels] at h
      split at h
      · rw [← hels]
        exact restore_eq (Prod.mk.inj h).2
      · split at h
        · exact absurd (Prod.mk.inj h).1 (by simp)
        · have helements : (s.pop.push g e.node e.token).path.elements = e :: rest := by
            rw [elements_push, elements_pop, hels, List.tail_cons]
          split at h
          · rw [← helements]
            exact restore_eq (Prod.mk.inj h).2
          · have hremoved : e.token.toList ++ (removed.filterMap (·.token) ++ pending) =
                (e :: removed).filterMap (·.token) ++ pending := by
              rw [List.filterMap_cons]
              cases e.token <;> rfl
            rw [hremoved] at h
            obtain ⟨hpending, hrest⟩ :=
              ih (s := (s.pop.push g e.node e.token).pop) (e :: removed) hs h
            refine ⟨hpending, ?_⟩
            rw [hrest, elements_pop, helements, List.tail_cons, List.reverse_cons,
              List.append_assoc, List.singleton_append]

/-- Where backtracking finds no alternative, the path and the pending tokens are put back. -/
theorem backtrack_restores (hs : 2 ≤ s.graph.size)
    (h : s.backtrack g full pending = (false, s', pending')) :
    pending' = pending ∧ s'.path.elements = s.path.elements := backtrackFrom_restores [] hs h

end Search

/-- The only errors of the stream are texts of unknown type. -/
theorem Stream.exists_unknown {lx : Lexer} {s s' : Stream} {e : ParseError}
    (h : s.next lx = (.error e, s')) :
    ∃ unknown : UnknownSpan, e = unknown.toParseError s'.source := by
  unfold next at h
  split at h
  · exact absurd (Prod.mk.inj h).1 nofun
  · split at h
    · exact absurd (Prod.mk.inj h).1 nofun
    · split at h
      · next unknown _ =>
        obtain ⟨he, rfl⟩ := Prod.mk.inj h
        exact ⟨unknown, (Except.error.inj he).symm⟩
      · exact absurd (Prod.mk.inj h).1 nofun
      · exact absurd (Prod.mk.inj h).1 nofun

namespace Run

variable {g : Grammar} {lx : Lexer} {full : Bool} {levels : Nat} {r t : Run} {e : ParseError}

theorem eq_of_retreat {e' : ParseError} (h : retreat g full r e' = .failed e) : e = e' := by
  unfold retreat at h
  split at h
  · exact absurd h nofun
  · exact (Outcome.failed.inj h).symm

/-- The error of an iteration that has its token: the last of the pending tokens is blamed, or the
end of the input if none is pending. -/
theorem error_of_step (hf : r.fetch lx = .ok t) (h : r.step g lx full levels = some (.failed e)) :
    e = match t.pending.getLast? with
      | none => .unexpectedEnd ⟨t.stream.source, t.stream.position⟩
      | some last => .unexpectedToken last.text ⟨t.stream.source, last.start⟩ := by
  rw [step, hf] at h
  simp only at h
  cases hp : t.pending with
  | nil =>
    simp only [hp] at h
    split at h
    · cases h
    · cases h
    · exact eq_of_retreat (Option.some.inj h)
  | cons token rest =>
    simp only [hp] at h
    split at h
    · cases h
    · cases h
    · rw [List.getLast?_eq_some_getLast (List.cons_ne_nil token rest)]
      exact eq_of_retreat (Option.some.inj h)

/-- The last token was read in this iteration, with all tokens before it on the path, or earlier. -/
theorem before_of_fetch {before : List Token} {last : Token} (hf : r.fetch lx = .ok t)
    (ht : t.tokens = before ++ [last]) :
    r.search.path.tokens = before ∨ r.tokens = before ++ [last] := by
  rcases fetch_ok hf with ⟨-, rfl⟩ | ⟨hp, o, stream, -, rfl⟩
  · exact .inr ht
  · cases o with
    | none => exact .inr (by rwa [tokens, hp])
    | some token => exact .inl (List.append_inj' ht rfl).1

theorem pending_of_fetch_error (hf : r.fetch lx = .error e) : r.pending = [] := by
  unfold fetch at hf
  split at hf
  · exact absurd hf nofun
  · assumption

theorem tokens_prefix_fetch (hf : r.fetch lx = .ok t) : r.tokens <+: t.tokens := by
  rcases fetch_ok hf with ⟨-, rfl⟩ | ⟨hp, o, stream, -, rfl⟩
  · exact List.prefix_rfl
  · rw [tokens, hp, List.append_nil]
    exact List.prefix_append _ _

end Run

namespace Parser

variable {p : Parser} {text : List Char} {source : Option String} {r r' t : Run} {s : Search}
  {e : ParseError} {fuel : Nat}

/-- What is on a path in the course of an iteration was on the path at its head. -/
theorem Passes.exists_head (h : p.Passes text source s) :
    ∃ r, p.Reaches text source r ∧ s.path.tokens <+: r.search.path.tokens := by
  cases h with
  | @head r hr => exact ⟨r, hr, List.prefix_rfl⟩
  | @descending r t _ hr hf hdescends =>
    refine ⟨r, hr, ?_⟩
    rw [hdescends.tokens_eq, Run.search_fetch hf]
  | @backtracking r t _ hr hf _ hbacktracks =>
    refine ⟨r, hr, ?_⟩
    have hfront := hbacktracks.tokens_prefix (by rw [Run.search_fetch hf]; exact hr.valid.two_le)
    rwa [List.reverse_nil, List.nil_append, ← Path.tokens_eq, Run.search_fetch hf] at hfront

/-- When a token was read, all tokens before it were on the path. -/
theorem Reaches.exists_before {before : List Token} {last : Token} (h : p.Reaches text source r)
    (hr : r.tokens = before ++ [last]) :
    ∃ r, p.Reaches text source r ∧ r.search.path.tokens = before := by
  refine h.induct (P := fun r => r.tokens = before ++ [last] →
    ∃ r, p.Reaches text source r ∧ r.search.path.tokens = before) ?_ ?_ hr
  · intro hstart
    exact absurd hstart (List.append_ne_nil_of_right_ne_nil before (List.cons_ne_nil last [])).symm
  · intro r t r' hr ih hf hgoes hr'
    have hs := hr.valid.two_le
    rw [← Run.search_fetch hf] at hs
    rcases Run.before_of_fetch hf ((hgoes.tokens_eq hs).symm.trans hr') with hbefore | hbefore
    · exact ⟨r, hr, hbefore⟩
    · exact ih hbefore

/-- No token gets lost between two iterations. -/
theorem Reaches.tokens_prefix (h : p.Reaches text source r)
    (hnext : Relation.ReflTransGen p.Next r r') : r.tokens <+: r'.tokens := by
  induction hnext with
  | refl => exact List.prefix_rfl
  | @tail t t' hrest hnext ih =>
    have ht : p.Reaches text source t := h.trans hrest
    obtain ⟨levels, hstep⟩ := hnext
    obtain ⟨u, hf, hgoes⟩ := Run.goes_of_step ht.valid.two_le hstep
    have hs := ht.valid.two_le
    rw [← Run.search_fetch hf] at hs
    rw [hgoes.tokens_eq hs]
    exact ih.trans (Run.tokens_prefix_fetch hf)

/-- An earlier iteration had its token, too, and no more than the later one. -/
theorem Reaches.exists_fetch_prefix (h : p.Reaches text source r)
    (hnext : Relation.ReflTransGen p.Next r r') (hf : r'.fetch p.lexer = .ok t) :
    ∃ u, r.fetch p.lexer = .ok u ∧ u.tokens <+: t.tokens := by
  rcases hnext.cases_head with rfl | ⟨v, hstep, hrest⟩
  · exact ⟨t, hf, List.prefix_rfl⟩
  · have hv : p.Reaches text source v := h.tail hstep
    obtain ⟨levels, hstep⟩ := hstep
    obtain ⟨u, hf', hgoes⟩ := Run.goes_of_step h.valid.two_le hstep
    have hs := h.valid.two_le
    rw [← Run.search_fetch hf'] at hs
    refine ⟨u, hf', ?_⟩
    rw [← hgoes.tokens_eq hs]
    exact (hv.tokens_prefix hrest).trans (Run.tokens_prefix_fetch hf)

/-- If more is ahead than the tokens that an iteration has read, then these were not on the path
together at the head of it or of an earlier one: another token would have been read, or an error. -/
theorem Reaches.not_prefix (hr : p.Reaches text source r)
    (hnext : Relation.ReflTransGen p.Next r r') (hf : r'.fetch p.lexer = .ok t)
    (hahead : (t.stream.results p.lexer).1 ≠ []) :
    ¬t.tokens <+: r.search.path.tokens := by
  intro hfront
  have hr' : p.Reaches text source r' := hr.trans hnext
  obtain ⟨u, hu, hufront⟩ := hr.exists_fetch_prefix hnext hf
  have hpath : r.search.path.tokens <+: r.tokens := List.prefix_append _ _
  have htokens : r.tokens = t.tokens :=
    ((Run.tokens_prefix_fetch hu).trans hufront).eq_of_length_le (hfront.trans hpath).length_le
  have hpending : r.pending = [] := by
    have hall := hpath.eq_of_length_le (htokens ▸ hfront.length_le)
    exact List.self_eq_append_right.mp hall
  have hidle := Stream.idle_stream p.lexer text source
  have hresults := hr.pulls.results_eq hidle
  rw [(Run.pulls_fetch hr'.pulls hf).results_eq hidle, ← htokens,
    List.append_cancel_left_eq] at hresults
  rcases Run.fetch_ok hu with ⟨hne, -⟩ | ⟨-, o, stream, hread, rfl⟩
  · exact hne hpending
  · cases o with
    | none =>
      have hnone := (Stream.results_of_next_none (hr.pulls.idle hidle) hread).2.1
      exact hahead (hresults.trans hnone)
    | some token =>
      have hlength := hufront.length_le
      rw [← htokens, Run.tokens, Run.tokens, hpending] at hlength
      exact absurd hlength (by simp)

/-! ## Errors -/

/-- The iteration ends without an alternative, and puts the path and these pending tokens back. -/
def GivesUp (p : Parser) (r : Run) (pending : List Token) : Prop :=
  ∃ t s, r.fetch p.lexer = .ok t ∧ t.pending = pending ∧
    t.search.backtrack p.grammar p.fullBacktracking t.pending = (false, s, pending) ∧
    s.path.elements = r.search.path.elements

/-- What an error says about the run that stops with it at the head `r` of an iteration, having
pulled the tokens; the rest is still ahead. -/
inductive Blames (p : Parser) (text : List Char) (source : Option String) (r : Run)
    (tokens : List Token) (ahead : List (Except ParseError Token)) : ParseError → Prop
  /-- The last token is blamed, which is the last of those pending.  All before it were on one path,
  but if there is more ahead it was never on a path together with them. -/
  | token {before pending : List Token}
      {last : Token} : tokens = before ++ [last] → p.GivesUp r pending →
      pending.getLast? = some last → (∃ s, p.Passes text source s ∧ s.path.tokens = before) →
      (ahead ≠ [] → ∀ s, p.Passes text source s → ¬tokens <+: s.path.tokens) →
      Blames p text source r tokens ahead (.unexpectedToken last.text ⟨source, last.start⟩)
  /-- All tokens of the text are on the path, and the position is that of the last character. -/
  | ending : ahead = [] → p.GivesUp r [] → p.lexer.tokenizeFrom text source = .ok tokens →
      r.search.path.tokens = tokens → Blames p text source r tokens ahead (.unexpectedEnd ⟨source,
          .advanceOver (max p.lexer.tabSize 1) .beforeText text⟩)
  /-- All tokens in front of the text that no type recognizes are on the path. -/
  | unknown {blamed : String} {location : Location} {more : List (Except ParseError Token)} :
      ahead = .error (.unknownToken blamed location) :: more → r.search.path.tokens = tokens →
      Blames p text source r tokens ahead (.unknownToken blamed location)

/-- A run that ends with an error stops with it in some iteration. -/
theorem exists_failed_of_iterate {levels : Nat} (hr : p.Reaches text source r)
    (h : r.iterate p.grammar p.lexer p.fullBacktracking levels fuel = some (.error e)) :
    ∃ r, p.Reaches text source r ∧
      r.step p.grammar p.lexer p.fullBacktracking levels = some (.failed e) := by
  induction fuel generalizing r with
  | zero => cases h
  | succ fuel ih =>
    rw [Run.iterate] at h
    split at h
    · cases h
    · exact absurd (Option.some.inj h) (by simp)
    · next hstep =>
      obtain rfl := Except.error.inj (Option.some.inj h)
      exact ⟨r, hr, hstep⟩
    · next r' hstep => exact ih (hr.tail ⟨levels, hstep⟩) h

theorem givesUp_of_step {levels : Nat} (hr : p.Reaches text source r) (hf : r.fetch p.lexer = .ok t)
    (h : r.step p.grammar p.lexer p.fullBacktracking levels = some (.failed e)) :
    p.GivesUp r t.pending := by
  obtain ⟨-, hback⟩ := Run.fails_of_step hr.valid.two_le hf h
  rcases hsearch :
    t.search.backtrack p.grammar p.fullBacktracking t.pending with ⟨_ | _, s, pending⟩
  · have hs := hr.valid.two_le
    rw [← Run.search_fetch hf] at hs
    obtain ⟨rfl, helements⟩ := Search.backtrack_restores hs hsearch
    exact ⟨t, s, hf, rfl, hsearch, by rw [helements, Run.search_fetch hf]⟩
  · rw [hsearch] at hback
    exact absurd hback nofun

/-- An iteration that has its token blames the last one that was read, or the end of the input. -/
theorem blames_of_fetch {levels : Nat} (hr : p.Reaches text source r) (hf : r.fetch p.lexer = .ok t)
    (h : r.step p.grammar p.lexer p.fullBacktracking levels = some (.failed e)) :
    p.Blames text source r t.tokens (t.stream.results p.lexer).1 e := by
  have hbetween := (Run.pulls_fetch hr.pulls hf).between (Stream.between_stream p.lexer text source)
  have hgives := givesUp_of_step hr hf h
  have he := Run.error_of_step hf h
  rw [hbetween.source_eq] at he
  rcases List.eq_nil_or_concat t.pending with hp | ⟨pending, last, hp⟩
  · rw [hp, List.getLast?_nil] at he
    subst he
    rcases Run.fetch_ok hf with ⟨hne, rfl⟩ | ⟨-, o, stream, hread, rfl⟩
    · exact absurd hp hne
    · obtain rfl : o = none := Option.toList_eq_nil_iff.mp hp
      have hidle := hr.pulls.idle (Stream.idle_stream p.lexer text source)
      obtain ⟨-, -, hahead, -, hrest⟩ := Stream.results_of_next_none hidle hread
      rw [hbetween.position_eq hrest]
      have htokens : Run.tokens { r with stream, pending := (none : Option Token).toList } =
          r.search.path.tokens :=
        List.append_nil _
      refine .ending hahead hgives ?_ htokens.symm
      exact tokenizeFrom_of_pulls (Run.pulls_fetch hr.pulls hf) hahead
  · rw [List.concat_eq_append] at hp
    rw [hp, List.getLast?_concat] at he
    subst he
    obtain ⟨before, hbefore⟩ : ∃ before, t.tokens = before ++ [last] :=
      ⟨t.search.path.tokens ++ pending, by rw [Run.tokens, hp, List.append_assoc]⟩
    refine .token hbefore hgives (by rw [hp, List.getLast?_concat]) ?_ ?_
    · rcases Run.before_of_fetch hf hbefore with hpath | hpath
      · exact ⟨_, .head hr, hpath⟩
      · obtain ⟨r', hr', hpath'⟩ := hr.exists_before hpath
        exact ⟨_, .head hr', hpath'⟩
    · intro hahead s hs hfront
      obtain ⟨r', hr', hle⟩ := hs.exists_head
      exact hr'.not_prefix (reflTransGen_of_stop hr' hr h (by simp)) hf hahead (hfront.trans hle)

/-- An iteration that gets an error in place of a token stops with all earlier tokens on the
path. -/
theorem blames_of_fetch_error (hr : p.Reaches text source r) (hf : r.fetch p.lexer = .error e) :
    p.Blames text source r r.tokens (r.stream.results p.lexer).1 e := by
  obtain ⟨stream, hnext⟩ := Run.fetch_error hf
  have hidle := hr.pulls.idle (Stream.idle_stream p.lexer text source)
  have hahead := Stream.results_of_next_error hidle hnext
  obtain ⟨unknown, rfl⟩ := Stream.exists_unknown hnext
  refine .unknown hahead ?_
  rw [Run.tokens, Run.pending_of_fetch_error hf, List.append_nil]

/-- Every error of a search blames what it should. -/
theorem blames_of_searchWithin (h : p.searchWithin fuel text source = some (.error e)) :
    ∃ r tokens stream, p.Reaches text source r ∧
      r.step p.grammar p.lexer p.fullBacktracking fuel = some (.failed e) ∧
      (p.lexer.stream text source).Pulls p.lexer tokens stream ∧
      ((p.lexer.stream text source).results p.lexer).1 =
        tokens.map .ok ++ (stream.results p.lexer).1 ∧
      p.Blames text source r tokens (stream.results p.lexer).1 e := by
  obtain ⟨r, hr, hstep⟩ := exists_failed_of_iterate .refl h
  have hidle := Stream.idle_stream p.lexer text source
  cases hf : r.fetch p.lexer with
  | error e' =>
    obtain rfl : e' = e := by
      rw [Run.step, hf] at hstep
      exact Run.Outcome.failed.inj (Option.some.inj hstep)
    exact ⟨r, r.tokens, r.stream, hr, hstep, hr.pulls, hr.pulls.results_eq hidle,
      blames_of_fetch_error hr hf⟩
  | ok t =>
    have hpulls := Run.pulls_fetch hr.pulls hf
    exact ⟨r, t.tokens, t.stream, hr, hstep, hpulls, hpulls.results_eq hidle,
      blames_of_fetch hr hf hstep⟩

end Parser

namespace Sample.Boundary

/-- Behind "a b" the barrier leaves only "d", so the next token is blamed, though
another one would follow. -/
theorem blames_of_searchWithin_boundary :
    ∃ (r : Run) (tokens : List Token) (stream : Stream),
      (Parser.ofGrammar grammar).searchWithin 100 "a b e d".toList none =
        some (.error (.unexpectedToken "e" ⟨none, ⟨1, 5⟩⟩)) ∧
      (Parser.ofGrammar grammar).Reaches "a b e d".toList none r ∧
      (Parser.ofGrammar grammar).Blames "a b e d".toList none r tokens
        (stream.results (Parser.ofGrammar grammar).lexer).1
        (.unexpectedToken "e" ⟨none, ⟨1, 5⟩⟩) := by
  have herror : ((Parser.ofGrammar grammar).searchWithin 100 "a b e d".toList none).any
      (fun answer => match answer with
      | .error e => decide (e = .unexpectedToken "e" ⟨none, ⟨1, 5⟩⟩)
      | .ok _ => false) = true := by decide +kernel
  obtain ⟨answer, hsearch, he⟩ := (Option.any_eq_true _ _).mp herror
  cases answer with
  | ok s => exact absurd he nofun
  | error e =>
    obtain rfl := of_decide_eq_true he
    obtain ⟨r, tokens, stream, hr, -, -, -, hblames⟩ := Parser.blames_of_searchWithin hsearch
    exact ⟨r, tokens, stream, hsearch, hr, hblames⟩

end Sample.Boundary

end GrammarGraph
