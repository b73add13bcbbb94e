import GrammarGraph.Proofs.Hooks

/-!
# The environment depends on the path alone

Between two heads of the loop the path is pushed and popped, its tip is switched, and what was
removed is put back.  `Parser.Passes` are the states that a run passes through in all this.  If
every hook that the run applies can be taken back (`Parser.HooksUndone`), then the scopes in each of
them are those that the elements of the path give when they are pushed in order onto an empty path
(`Parser.scopes_of_elements`).
-/

namespace GrammarGraph

namespace Path

variable {a b graph : Graph} {g : Grammar} {p : Path} {node : NodeId} {token : Option Token}
  {els els' : List PathElement}

theorem reverts_of_le (h : a ≤ b) (hn : node < a.size) :
    p.Reverts b node token ↔ p.Reverts a node token := by
  simp only [Reverts, Graph.kind_of_le h hn]

theorem reversible_of_le (h : a ≤ b) (hels : ∀ e ∈ els, e.node < a.size) :
    Reversible b g els ↔ Reversible a g els := by
  induction els with
  | nil => exact Iff.rfl
  | cons e els ih =>
    have hrest : ∀ e' ∈ els, e'.node < a.size := fun e' he' => hels e' (List.mem_cons_of_mem _ he')
    rw [reversible_cons, reversible_cons, replay_of_le h hrest,
      reverts_of_le h (hels e List.mem_cons_self), ih hrest]

theorem Reversible.of_suffix (h : els <:+ els') (hr : Reversible graph g els') :
    Reversible graph g els := by
  induction els' with
  | nil =>
    rw [List.suffix_nil.mp h]
    trivial
  | cons e els' ih =>
    rcases List.suffix_cons_iff.mp h with rfl | h
    · exact hr
    · exact ih h hr.2

/-- Of the arena only the kinds of the nodes on the path matter. -/
theorem replay_congr (h : ∀ e ∈ els, a.kind e.node = b.kind e.node) :
    replay a g els = replay b g els := by
  induction els with
  | nil => rfl
  | cons e els ih =>
    rw [replay_cons, replay_cons, ih fun e' he' => h e' (List.mem_cons_of_mem _ he')]
    simp only [push, h e List.mem_cons_self]

end Path

namespace Search

variable {g : Grammar} {full : Bool} {s s' v : Search} {token : Option Token} {graph : Graph}
  {tip e : PathElement} {rest removed : List PathElement} {n : NodeId}

/-! ## States in the course of an iteration -/

/-- The states that a descent passes through before it takes the token. -/
inductive Descends (g : Grammar) (token : Option Token) : Search → Search → Prop
  | here {s : Search} : Descends g token s s
  /-- A slot that is about to take the token is stepped back from. -/
  | popped {s : Search} {tip : PathElement} {type : TokenType} : s.path.tip? = some tip →
      s.expected? = some type → token.any (·.hasType type.id) = true → Descends g token s s.pop
  /-- What the tip leads to is wired. -/
  | wired {s : Search} {tip : PathElement} {next : Option (List NodeId)}
      {graph : Graph} : s.path.tip? = some tip → s.expected? = none →
      s.graph.successors g tip.node ⟨s.path, token⟩ = (next, graph) →
      Descends g token s { s with graph }
  /-- A successor is stepped onto after those before it, and the descent goes on from there. -/
  | step {s v : Search} {tip : PathElement} {graph : Graph} {before behind : List NodeId}
      {n : NodeId} : s.path.tip? = some tip → s.expected? = none →
      s.graph.successors g tip.node ⟨s.path, token⟩ = (some (before ++ n :: behind), graph) →
      (∀ m ∈ before, barred token { s with graph } m = false →
        Fails g token (push g { s with graph } m none)) → barred token { s with graph } n = false →
      Descends g token (push g { s with graph } n none) v → Descends g token s v
  /-- A successor from which the descent failed is stepped back from. -/
  | failed {s : Search} {tip : PathElement} {graph : Graph} {next : List NodeId} {n : NodeId} :
      s.path.tip? = some tip → s.expected? = none →
        s.graph.successors g tip.node ⟨s.path, token⟩ = (some next, graph) → n ∈ next →
      Fails g token (push g { s with graph } n none) →
      Descends g token s (push g { s with graph } n none).pop
  /-- What was wired is released once all successors have failed. -/
  | released {s : Search} {tip : PathElement} {next : Option (List NodeId)}
      {graph : Graph} : s.path.tip? = some tip → s.expected? = none →
      s.graph.successors g tip.node ⟨s.path, token⟩ = (next, graph) →
      Descends g token s { s with graph := graph.truncate s.graph.size }

/-- The states that the search passes through while it looks for a sibling of the tip. -/
inductive Switches (g : Grammar) (s : Search) : Search → Prop
  | popped : Switches g s s.pop
  /-- What the parent leads to is wired. -/
  | wired {e parent : PathElement} {next : Option (List NodeId)}
      {graph : Graph} : s.path.tip? = some e → s.pop.path.tip? = some parent →
      s.pop.graph.successors g parent.node ⟨s.pop.path, e.token⟩ = (next, graph) →
      Switches g s { s.pop with graph }
  /-- What was wired is released. -/
  | released {e parent : PathElement} {next : Option (List NodeId)}
      {graph : Graph} : s.path.tip? = some e → s.pop.path.tip? = some parent →
      s.pop.graph.successors g parent.node ⟨s.pop.path, e.token⟩ = (next, graph) →
      Switches g s { s.pop with graph := graph.truncate s.pop.graph.size }
  /-- The tip is replaced by the sibling, or put back. -/
  | switched (pending : List Token) : Switches g s (s.switchSibling g pending).2.1

/-- The states that the search passes through while it puts back removed elements. -/
inductive Restores (g : Grammar) : List PathElement → Search → Search → Prop
  | here {s : Search} {removed : List PathElement} : Restores g removed s s
  | step {s v : Search} {e : PathElement} {removed : List PathElement} :
      Restores g removed (s.push g e.node e.token) v → Restores g (e :: removed) s v

/-- The states that the search passes through while it steps back to an alternative, given the
elements that were removed before. -/
inductive Backtracks (g : Grammar) (full : Bool) : Search → List PathElement → Search → Prop
  | switching {s v : Search} {removed : List PathElement} : 1 < s.path.length → Switches g s v →
      Backtracks g full s removed v
  /-- Without a sibling the tip is stepped back from, unless it is a barrier. -/
  | back {s s' v : Search} {e : PathElement} {pending pending' : List Token}
      {removed : List PathElement} :
      1 < s.path.length → s.switchSibling g pending = (false, s', pending') →
        s'.path.tip? = some e → (full = true ∨ (s'.graph.kind e.node).isRuleEnd = false) →
      Backtracks g full s'.pop (e :: removed) v → Backtracks g full s removed v
  /-- The first element is reached, and what was removed is put back. -/
  | exhausted {s v : Search} {removed : List PathElement} : s.path.length ≤ 1 →
      Restores g removed s v → Backtracks g full s removed v
  /-- A barrier is met, and what was removed is put back. -/
  | barred {s s' v : Search} {e : PathElement} {pending pending' : List Token}
      {removed : List PathElement} : 1 < s.path.length →
        s.switchSibling g pending = (false, s', pending') → s'.path.tip? = some e →
      (s'.graph.kind e.node).isRuleEnd = true → full = false → Restores g removed s' v →
      Backtracks g full s removed v

theorem restores_restore : ∀ (removed : List PathElement) (s : Search) (pending : List Token),
    Restores g removed s (restore g removed s pending).1
  | [], _, _ => .here
  | _ :: removed, _, _ => .step (restores_restore removed _ _)

/-- Where the tip has no sibling it is put back. -/
theorem eq_of_switchSibling {pending pending' : List Token} (hs : 2 ≤ s.graph.size)
    (hels : s.path.elements = e :: rest) (h : s.switchSibling g pending = (false, s', pending')) :
    s' = s.pop.push g e.node e.token := by
  rw [switchSibling_eq hs hels] at h
  split at h
  · exact absurd (Prod.mk.inj h).1 (by simp)
  · exact (Prod.mk.inj (Prod.mk.inj h).2).1.symm

/-- The state that backtracking comes to is one that it passes through. -/
theorem backtracks_backtrackFrom {fuel : Nat} {pending : List Token} (hs : 2 ≤ s.graph.size)
    (hfuel : s.path.length ≤ fuel) :
    Backtracks g full s removed (backtrackFrom g full fuel s pending removed).2.1 := by
  induction fuel generalizing s pending removed with
  | zero => exact .exhausted (le_trans hfuel (Nat.zero_le 1)) (restores_restore removed s pending)
  | succ fuel ih =>
    rw [backtrackFrom]
    split
    · next hlength => exact .exhausted hlength (restores_restore removed s pending)
    · next hlength =>
      rw [not_le] at hlength
      obtain ⟨e, rest, hels⟩ := List.exists_cons_of_length_pos (lt_trans Nat.zero_lt_one hlength)
      rcases hswitch : s.switchSibling g pending with ⟨_ | _, s', pending'⟩
      · obtain rfl := eq_of_switchSibling hs hels hswitch
        have htip : (s.pop.push g e.node e.token).path.tip? = some e := rfl
        simp only [htip, Option.any_some, stepBack]
        split
        · next hbarrier =>
          rw [Bool.and_eq_true, Bool.not_eq_true'] at hbarrier
          exact .barred hlength hswitch htip hbarrier.1 hbarrier.2
            (restores_restore removed _ pending')
        · next hbarrier =>
          refine .back hlength hswitch htip ?_ (ih hs ?_)
          · cases hk : (s.graph.kind e.node).isRuleEnd <;> cases full <;> simp_all
          · rw [Path.length, elements_pop, elements_push, List.tail_cons, elements_pop, hels,
              List.tail_cons]
            rw [Path.length, hels, List.length_cons] at hfuel
            exact Nat.le_of_succ_le_succ hfuel
      · have hpasses : Backtracks g full s removed (s.switchSibling g pending).2.1 :=
          .switching hlength (.switched pending)
        rwa [hswitch] at hpasses

/-! ## Faithful states -/

/-- The path is the one that its elements give, and every step that led along
them can be taken back. -/
structure Faithful (g : Grammar) (s : Search) : Prop where
  wellFormed : s.graph.WellFormed
  lt_size : ∀ e ∈ s.path.elements, e.node < s.graph.size
  isReplay : s.IsReplay g
  reversible : Path.Reversible s.graph g s.path.elements

namespace Faithful

theorem push (h : s.Faithful g) (hn : n < s.graph.size) (hr : s.path.Reverts s.graph n token) :
    (s.push g n token).Faithful g where
  wellFormed := h.wellFormed
  lt_size e he := by
    rcases List.mem_cons.mp he with rfl | he
    · exact hn
    · exact h.lt_size e he
  isReplay := h.isReplay.push n token
  reversible := by
    rw [h.isReplay] at hr
    exact ⟨hr, h.reversible⟩

theorem push_none (h : s.Faithful g) (hn : n < s.graph.size) : (s.push g n none).Faithful g :=
  h.push hn (Path.reverts_none _ _ _)

theorem pop (h : s.Faithful g) (hels : s.path.elements = e :: rest) : s.pop.Faithful g := by
  have hr := h.reversible
  rw [hels] at hr
  refine ⟨h.wellFormed, fun e' he' => h.lt_size e' ?_, h.isReplay.pop hels hr.1, ?_⟩
  · rw [elements_pop] at he'
    exact List.mem_of_mem_tail he'
  · rw [graph_pop, elements_pop, hels, List.tail_cons]
    exact hr.2

/-- Stepping onto the popped tip again gives the same state. -/
theorem push_pop (h : s.Faithful g) (hels : s.path.elements = e :: rest) :
    s.pop.push g e.node e.token = s := by
  have hr := h.reversible
  rw [hels] at hr
  exact h.isReplay.push_pop hels hr.1

theorem wire {id : NodeId} {ctx : Context} {next : Option (List NodeId)} (h : s.Faithful g)
    (hsucc : s.graph.successors g id ctx = (next, graph)) : Faithful g { s with graph } := by
  have hle := successors_le hsucc
  refine ⟨?_, fun e he => lt_of_lt_of_le (h.lt_size e he) hle.1, h.isReplay.of_le hle h.lt_size,
    (Path.reversible_of_le hle h.lt_size).mpr h.reversible⟩
  cases next with
  | none => exact Graph.successors_none hsucc ▸ h.wellFormed
  | some next => exact (Graph.leaves_of_successors hsucc).wellFormed h.wellFormed

theorem release {id : NodeId} {ctx : Context} {next : Option (List NodeId)} (h : s.Faithful g)
    (hsucc : s.graph.successors g id ctx = (next, graph)) :
    Faithful g { s with graph := graph.truncate s.graph.size } := by
  rw [Graph.truncate_of_le (successors_le hsucc) h.wellFormed.two_le]
  exact h

theorem step {id : NodeId} {ctx : Context} {next : List NodeId} (h : s.Faithful g)
    (hsucc : s.graph.successors g id ctx = (some next, graph)) (hn : n ∈ next) :
    (Search.push g { s with graph } n none).Faithful g :=
  (h.wire hsucc).push_none ((Graph.leaves_of_successors hsucc).lt_size h.wellFormed hn)

end Faithful

theorem Descends.faithful (h : Descends g token s v) (hs : s.Faithful g) : v.Faithful g := by
  induction h with
  | here => exact hs
  | popped ht =>
    obtain ⟨rest, hels⟩ := exists_rest ht
    exact hs.pop hels
  | wired _ _ hsucc => exact hs.wire hsucc
  | step _ _ hsucc _ _ _ ih => exact ih (hs.step hsucc (List.mem_append_right _ List.mem_cons_self))
  | failed _ _ hsucc =>
    rw [pop_push_none]
    exact hs.wire hsucc
  | released _ _ hsucc => exact hs.release hsucc

theorem Switches.faithful (h : Switches g s v) (hs : s.Faithful g)
    (hels : s.path.elements = e :: rest) : v.Faithful g := by
  cases h with
  | popped => exact hs.pop hels
  | wired _ _ hsucc => exact (hs.pop hels).wire hsucc
  | released _ _ hsucc => exact (hs.pop hels).release hsucc
  | switched pending =>
    rw [switchSibling_eq hs.wellFormed.two_le hels]
    split
    · next n halt =>
      obtain ⟨parent, rest, rfl, hn⟩ := exists_parent halt
      exact (hs.pop hels).push_none
        (hs.wellFormed.targets_lt _ _ (Graph.mem_targets_of_mem_later hn))
    · simp only [hs.push_pop hels]
      exact hs

theorem Restores.faithful (h : Restores g removed s v) (hs : s.Faithful g)
    (hlt : ∀ e ∈ removed, e.node < s.graph.size)
    (hr : Path.Reversible s.graph g (removed.reverse ++ s.path.elements)) : v.Faithful g := by
  induction h with
  | here => exact hs
  | @step s v e removed _ ih =>
    rw [List.reverse_cons, List.append_assoc, List.singleton_append] at hr
    have hreverts := (hr.of_suffix (List.suffix_append _ _)).1
    rw [← hs.isReplay] at hreverts
    exact ih (hs.push (hlt e List.mem_cons_self) hreverts)
      (fun e' he' => hlt e' (List.mem_cons_of_mem _ he')) hr

theorem Backtracks.faithful (h : Backtracks g full s removed v) (hs : s.Faithful g)
    (hlt : ∀ e ∈ removed, e.node < s.graph.size)
    (hr : Path.Reversible s.graph g (removed.reverse ++ s.path.elements)) : v.Faithful g := by
  induction h with
  | switching hlength hswitches =>
    obtain ⟨e, rest, hels⟩ := List.exists_cons_of_length_pos (lt_trans Nat.zero_lt_one hlength)
    exact hswitches.faithful hs hels
  | @back s s' v e pending pending' removed hlength hswitch htip _ _ ih =>
    obtain ⟨_, rest, hels⟩ := List.exists_cons_of_length_pos (lt_trans Nat.zero_lt_one hlength)
    obtain rfl := (eq_of_switchSibling hs.wellFormed.two_le hels hswitch).trans (hs.push_pop hels)
    obtain ⟨rest, hels⟩ := exists_rest htip
    refine ih (hs.pop hels) ?_ ?_
    · intro e' he'
      rcases List.mem_cons.mp he' with rfl | he'
      · exact hs.lt_size e' (hels ▸ List.mem_cons_self)
      · exact hlt e' he'
    · rw [graph_pop, elements_pop, hels, List.tail_cons, List.reverse_cons, List.append_assoc,
        List.singleton_append, ← hels]
      exact hr
  | exhausted _ hrestores => exact hrestores.faithful hs hlt hr
  | barred hlength hswitch _ _ _ hrestores =>
    obtain ⟨_, rest, hels⟩ := List.exists_cons_of_length_pos (lt_trans Nat.zero_lt_one hlength)
    obtain rfl := (eq_of_switchSibling hs.wellFormed.two_le hels hswitch).trans (hs.push_pop hels)
    exact hrestores.faithful hs hlt hr

/-- A descent that arrives comes to a faithful state if the hook that it runs, if
any, can be taken back. -/
theorem Arrives.faithful (h : Arrives g token s s') (hs : s.Faithful g)
    (hundone : ∀ v n, Descends g token s v → v.push g n token = s' →
      v.path.Reverts v.graph n token) : s'.Faithful g := by
  induction h with
  | @taken s tip type ht he hany =>
    obtain ⟨rest, hels⟩ := exists_rest ht
    have hlt := hs.lt_size tip (hels ▸ List.mem_cons_self)
    exact (hs.pop hels).push hlt (hundone _ _ (.popped ht he hany) rfl)
  | complete _ _ hsucc => exact hs.wire hsucc
  | step ht he hsucc hbefore hn _ ih =>
    refine ih (hs.step hsucc (List.mem_append_right _ List.mem_cons_self)) ?_
    exact fun v n hv => hundone v n (.step ht he hsucc hbefore hn hv)

end Search

namespace Parser

variable {p : Parser} {text : List Char} {source : Option String} {r : Run}
  {s s' : Search} {fuel : Nat}

/-- The states that the search passes through in the course of parsing the text. -/
inductive Passes (p : Parser) (text : List Char) (source : Option String) : Search → Prop
  /-- At the head of the loop. -/
  | head {r : Run} : p.Reaches text source r → Passes p text source r.search
  /-- While it looks for a slot for the next token, or for the end. -/
  | descending {r t : Run} {s : Search} : p.Reaches text source r → r.fetch p.lexer = .ok t →
      t.search.Descends p.grammar t.pending.head? s → Passes p text source s
  /-- While it looks for the next alternative, the descent having failed. -/
  | backtracking {r t : Run} {s : Search} : p.Reaches text source r → r.fetch p.lexer = .ok t →
      t.search.Fails p.grammar t.pending.head? →
      t.search.Backtracks p.grammar p.fullBacktracking [] s → Passes p text source s

/-- Whenever the run steps onto a node and this applies a hook to an environment, the undo of the
hook gives that environment back. -/
def HooksUndone (p : Parser) (text : List Char) (source : Option String) : Prop :=
  ∀ s node token, p.Passes text source s → p.Passes text source (s.push p.grammar node token) →
    s.path.Reverts s.graph node token

/-- If the states at the head of the loop are faithful, so are all others. -/
theorem Passes.faithful (h : p.Passes text source s)
    (heads : ∀ r, p.Reaches text source r → r.search.Faithful p.grammar) :
    s.Faithful p.grammar := by
  cases h with
  | head hr => exact heads _ hr
  | descending hr hf hdescends =>
    have hs := heads _ hr
    rw [← Run.search_fetch hf] at hs
    exact hdescends.faithful hs
  | backtracking hr hf _ hbacktracks =>
    have hs := heads _ hr
    rw [← Run.search_fetch hf] at hs
    exact hbacktracks.faithful hs (fun _ he => absurd he List.not_mem_nil) hs.reversible

theorem HooksUndone.faithful (hooks : p.HooksUndone text source) (h : p.Reaches text source r) :
    r.search.Faithful p.grammar := by
  induction h with
  | refl =>
    have hs := Search.valid_start p.grammar
    exact ⟨hs.wellFormed, hs.lt_size, Search.isReplay_start p.grammar, Path.reverts_none _ _ _,
      trivial⟩
  | @tail r r' hr hnext ih =>
    have hr' : p.Reaches text source r' := hr.tail hnext
    obtain ⟨levels, hstep⟩ := hnext
    obtain ⟨t, hf, hgoes⟩ := Run.goes_of_step (Reaches.valid hr).two_le hstep
    rw [← Run.search_fetch hf] at ih
    cases hgoes with
    | taken hpending harrives =>
      refine harrives.faithful ih ?_
      rintro v n hv rfl
      have hdescends : t.search.Descends p.grammar t.pending.head? v := by rwa [hpending]
      exact hooks v n _ (.descending hr hf hdescends) (.head hr')
    | retreated _ hback =>
      have hbacktracks : t.search.Backtracks p.grammar p.fullBacktracking []
          (t.search.backtrack p.grammar p.fullBacktracking t.pending).2.1 :=
        Search.backtracks_backtrackFrom ih.wellFormed.two_le (le_refl _)
      rw [hback] at hbacktracks
      exact hbacktracks.faithful ih (fun _ he => absurd he List.not_mem_nil) ih.reversible

/-- It is enough that the hooks along the paths at the head of the loop can be taken back. -/
theorem hooksUndone_iff : p.HooksUndone text source ↔ p.HooksRevert text source := by
  constructor
  · exact fun hooks r hr => (hooks.faithful hr).reversible
  · intro hooks s node token hs hpush
    have heads : ∀ r, p.Reaches text source r → r.search.Faithful p.grammar := fun r hr =>
      ⟨hr.valid.wellFormed, hr.valid.lt_size, hr.isReplay hooks, hooks r hr⟩
    have hreplay := (hs.faithful heads).isReplay
    have hreverts := (hpush.faithful heads).reversible.1
    rwa [Search.graph_push, ← hreplay] at hreverts

/-- In every state that the search passes through, the scopes are those that the elements of the
path give when they are pushed in order onto an empty path.  So variables, guards, switches and
expansions are as they would be had the search come there without ever stepping back, and two states
with the same elements have the same scopes. -/
theorem scopes_of_elements (hooks : p.HooksUndone text source) (h : p.Passes text source s) :
    s.path.scopes = (Path.replay s.graph p.grammar s.path.elements).scopes ∧
    (∀ name, s.path.var? name = (Path.replay s.graph p.grammar s.path.elements).var? name) ∧
    (∀ id token, s.graph.successors p.grammar id ⟨s.path, token⟩ =
      s.graph.successors p.grammar id ⟨.replay s.graph p.grammar s.path.elements, token⟩) ∧
    ∀ s', p.Passes text source s' → s'.path.elements = s.path.elements →
      (∀ e ∈ s.path.elements, s'.graph.kind e.node = s.graph.kind e.node) →
      s'.path.scopes = s.path.scopes := by
  have hreplay := (h.faithful fun _ hr => hooks.faithful hr).isReplay
  have hscopes := congrArg Path.scopes hreplay
  refine ⟨hscopes, fun name => congrArg (·.var? name) hreplay, ?_, ?_⟩
  · exact fun id token =>
      congrArg (fun path => s.graph.successors p.grammar id ⟨path, token⟩) hreplay
  · intro s' h' hels hkinds
    have hreplay' := (h'.faithful fun _ hr => hooks.faithful hr).isReplay
    rw [hscopes, congrArg Path.scopes hreplay', hels, Path.replay_congr hkinds]

end Parser

namespace Sample.Commands

/-- The search has applied the hook and gone through a command behind it when it steps back over
both.  The variable is what it was at the start. -/
theorem scopes_of_elements_twoStatements : ∃ r r',
    twoStatements.goOnFor 100 4 (twoStatements.start twoStatementsText none) = some r ∧
    r.search.path.var? "strict" = some (.bool true) ∧
    twoStatements.goOnFor 100 5 (twoStatements.start twoStatementsText none) = some r' ∧
    r'.search.path.tokens.isEmpty = true ∧ r'.search.path.var? "strict" = some (.bool false) ∧
    r'.search.path.scopes =
      (Path.replay r'.search.graph twoStatements.grammar r'.search.path.elements).scopes := by
  have hbefore :
      ((twoStatements.goOnFor 100 4 (twoStatements.start twoStatementsText none)).any fun r =>
      r.search.path.var? "strict" == some (.bool true)) = true := by decide +kernel
  have hbehind :
      ((twoStatements.goOnFor 100 5 (twoStatements.start twoStatementsText none)).any fun r =>
      r.search.path.tokens.isEmpty && r.search.path.var? "strict" == some (.bool false)) =
        true := by decide +kernel
  obtain ⟨r, hr, hvar⟩ := (Option.any_eq_true _ _).mp hbefore
  obtain ⟨r', hr', hboth⟩ := (Option.any_eq_true _ _).mp hbehind
  obtain ⟨htokens, hvar'⟩ := Bool.and_eq_true_iff.mp hboth
  have hreaches : twoStatements.Reaches twoStatementsText none r' := .of_goOnFor .refl hr'
  refine ⟨r, r', hr, by simpa using hvar, hr', htokens, by simpa using hvar', ?_⟩
  exact (Parser.scopes_of_elements (Parser.hooksUndone_iff.mpr hooksRevert_twoStatements)
    (.head hreaches)).1

end Sample.Commands

end GrammarGraph
