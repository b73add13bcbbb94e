import GrammarGraph.Proofs.Conservation
import GrammarGraph.Proofs.Frames

/-!
# The search comes to an end

* `Search.exists_levels`: a descent needs finitely many levels.
* `Path.Stacked`: for each element of a path how much can follow it, and how many alternatives it
  has.  An iteration makes this stack lower.
* `Parser.exists_answer`: from every state the loop comes to an answer, whatever the text.

The bodies of the grammar have to keep the ends of rules apart.  If one links to the plug of a
reference that it has not entered, then the end of the rule there counts as an instance that was
left, a rule that is open is entered again, and a descent need not come back
(`Sample.Plugged.search_never_ends`).
-/

namespace GrammarGraph

open Stack

namespace Search

open GrammarGraph.Path

variable {g : Grammar} {s : Search}

/-- The levels that a descent needs: by induction on the stack of the open bodies. -/
theorem exists_levels (token : Option Token) {frames : List Frame} {fresh : ℕ} (hg : g.EndsApart)
    (hs : s.Valid g) (hframed : Framed s.graph g s.path.elements frames fresh) :
    ∃ levels, (descendFor g token levels s).isSome := by
  generalize hstack : profile g.rules.length s.path.elements fresh frames = stack
  induction stack using (wellFounded_lower Nat.lt_wfRel.wf).induction generalizing s
    frames fresh with
  | _ stack ih =>
    refine exists_levels_of_successors hs.two_le ?_
    intro tip next graph htip hsucc n hn hbarred
    rw [barred, Bool.or_eq_false_iff] at hbarred
    obtain ⟨frames', fresh', hframed', hlower⟩ := hframed.step hg htip hsucc hn hbarred.2
    rw [hstack] at hlower
    exact ih _ hlower (hs.push hsucc hn) hframed' rfl

end Search

namespace Path

variable {a b graph : Graph} {g : Grammar} {total : ℕ} {els : List PathElement} {e : PathElement}
  {n : NodeId} {frames : List Frame} {fresh : ℕ}

/-- What can follow the elements: the tokens that can still be taken, and then the
stack of the open bodies. -/
abbrev Rank := ℕ × List (ℕ × ℕ)

namespace Rank

def Lt : Rank → Rank → Prop := Prod.Lex (· < ·) (Lower (· < ·))

theorem wellFounded_lt : WellFounded Lt :=
  WellFounded.prod_lex Nat.lt_wfRel.wf (wellFounded_lower Nat.lt_wfRel.wf)

end Rank

def rank (g : Grammar) (total : ℕ) (els : List PathElement) (frames : List Frame)
    (fresh : ℕ) : Rank :=
  (total - (tokensOf els).length, profile g.rules.length els fresh frames)

/-- How often the tip can change while the elements before it stay: it can give way to each later
link, and each of them can take a token. -/
def tries (graph : Graph) : List PathElement → ℕ
  | e :: parent :: _ =>
    2 * (graph.later parent.node e.node).length + (if e.token.isNone then 1 else 0)
  | _ => 0

/-- The ranks along a path, the tip first, with the tries that are left to each element. -/
inductive Stacked (graph : Graph) (g : Grammar) (total : ℕ) :
    List PathElement → List (Rank × ℕ) → Prop
  | root {e : PathElement} {frames : List Frame} {fresh : ℕ} : Framed graph g [e] frames fresh →
      Stacked graph g total [e] [(rank g total [e] frames fresh, 0)]
  | push {els : List PathElement} {e : PathElement} {frames : List Frame} {fresh : ℕ} {x : Rank × ℕ}
      {stack : List (Rank × ℕ)} : Stacked graph g total els (x :: stack) →
      Framed graph g (e :: els) frames fresh → Rank.Lt (rank g total (e :: els) frames fresh) x.1 →
      Stacked graph g total (e :: els)
        ((rank g total (e :: els) frames fresh, tries graph (e :: els)) :: x :: stack)

namespace Stacked

variable {stack : List (Rank × ℕ)}

theorem framed (h : Stacked graph g total els stack) : ∃ frames fresh k rest,
    Framed graph g els frames fresh ∧ stack = (rank g total els frames fresh, k) :: rest := by
  cases h with
  | root hframed => exact ⟨_, _, _, _, hframed, rfl⟩
  | push _ hframed => exact ⟨_, _, _, _, hframed, rfl⟩

theorem of_le (hle : a ≤ b) (h : Stacked a g total els stack) : Stacked b g total els stack := by
  induction h with
  | root hframed => exact .root (hframed.of_le hle)
  | @push els e frames fresh x stack hstacked hframed hlt ih =>
    obtain ⟨frames', fresh', -, -, hframed', -⟩ := hstacked.framed
    obtain ⟨parent, rest, f, fs, rfl, rfl, hholds⟩ := hframed'.holds_tip
    have htries : tries b (e :: parent :: rest) = tries a (e :: parent :: rest) := by
      rw [tries, tries, Graph.later_of_le hle (lt_of_lt_of_le hholds.2 hframed'.nested.region.le)]
    rw [← htries]
    exact .push ih (hframed.of_le hle) hlt

/-- Stepping onto a successor puts an entry with a smaller rank on top. -/
theorem step {tip : PathElement} {ctx : Context} {next : List NodeId} (hg : g.EndsApart)
    (h : Stacked a g total els stack) (htip : els.head? = some tip)
    (hsucc : a.successors g tip.node ctx = (some next, b)) (hn : n ∈ next)
    (hrev : revisitsIn b n 0 els = false) : ∃ rank' x rest, stack = x :: rest ∧ Rank.Lt rank' x.1 ∧
      Stacked b g total (⟨n, none⟩ :: els) ((rank', tries b (⟨n, none⟩ :: els)) :: stack) := by
  obtain ⟨frames, fresh, k, rest, hframed, rfl⟩ := h.framed
  obtain ⟨frames', fresh', hframed', hlower⟩ := hframed.step hg htip hsucc hn hrev
  have hlt :
      Rank.Lt (rank g total (⟨n, none⟩ :: els) frames' fresh') (rank g total els frames fresh) := by
    rw [rank, rank, tokensOf_cons, Option.toList_none, List.append_nil]
    exact .right _ hlower
  exact ⟨_, _, _, rfl, hlt, .push (h.of_le (Graph.leaves_of_successors hsucc).le) hframed' hlt⟩

/-- A slot that takes a token uses up a try, and fewer tokens are left to take. -/
theorem take {type : TokenType} {ident : Option String} {hook : Option Hook} {t : Token}
    (h : Stacked graph g total (⟨n, none⟩ :: els) stack) (hk : graph.kind n = .slot type ident hook)
    (htotal : (tokensOf els).length + 1 ≤ total) :
    ∃ stack', Stacked graph g total (⟨n, some t⟩ :: els) stack' ∧ Retries Rank.Lt stack' stack := by
  have hinside : ∀ {frames : List Frame}
      {fresh : ℕ}, Framed graph g (⟨n, none⟩ :: els) frames fresh →
      Framed graph g (⟨n, some t⟩ :: els) frames 0 ∧ els ≠ [] := by
    intro frames fresh hframed
    cases hframed with
    | base hbase =>
      have hroot := (Graph.kind_of_le hbase (Nat.lt_succ_self 1)).symm.trans hk
      exact absurd hroot (by simp [Graph.kind, Graph.ofGrammar, Graph.ofRoot])
    | inside hframed hholds hend hrule _ =>
      obtain ⟨_, _, _, _, rfl, -, -⟩ := hframed.holds_tip
      exact ⟨.inside (e := ⟨n, some t⟩) hframed hholds hend hrule fun _ => by
        rw [hk]; rfl, List.cons_ne_nil _ _⟩
    | enter _ _ _ _ hentry => exact absurd (hentry.symm.trans hk) (by simp)
    | leave hframed =>
      obtain ⟨_, hkind⟩ := hframed.nested.kind_stop
      exact absurd (hkind.symm.trans hk) (by simp)
  cases h with
  | root hframed => exact absurd rfl (hinside hframed).2
  | @push els e frames fresh x stack hstacked hframed hlt =>
    obtain ⟨hframed', -⟩ := hinside hframed
    obtain ⟨frames', fresh', k, rest', hparent, hx⟩ := hstacked.framed
    obtain ⟨rfl, rfl⟩ := List.cons.inj hx
    obtain ⟨parent, rest, _, _, rfl, -, -⟩ := hparent.holds_tip
    have hlt' : Rank.Lt (rank g total (⟨n, some t⟩ :: parent :: rest) frames 0)
        (rank g total (parent :: rest) frames' fresh') := by
      apply Prod.Lex.left
      rw [tokensOf_cons, List.length_append]
      exact Nat.sub_lt_sub_left htotal (Nat.lt_succ_self _)
    refine ⟨_, .push hstacked hframed' hlt', .intro [] ?_ (.inr ?_)⟩
    · simp [tries]
    · intro y hy
      obtain rfl := Option.some.inj hy
      exact hlt'

end Stacked

end Path

namespace Search

open GrammarGraph.Path

variable {g : Grammar} {full : Bool} {s s' : Search} {t : Token} {graph : Graph} {total : ℕ}
  {els els' : List PathElement} {pending pending' : List Token} {stack : List (Rank × ℕ)}

/-- A descent that takes a token makes the stack lower. -/
theorem Arrives.lower {token : Option Token} (hg : g.EndsApart) (h : Arrives g token s s')
    (hs : s.Valid g) (htoken : token = some t) (htotal : (tokensOf s'.path.elements).length ≤ total)
    (hstack : Stacked s.graph g total s.path.elements stack) :
    ∃ stack', Stacked s'.graph g total s'.path.elements stack' ∧
      Relation.TransGen (Lower Rank.Lt) stack' stack := by
  induction h generalizing stack with
  | @taken s tip type ht he =>
    obtain ⟨rest, hels⟩ := exists_rest ht
    obtain ⟨hnone, ident, hook, hk⟩ := isSlot_of_expected? ht he
    obtain ⟨n, _⟩ := tip
    subst hnone
    rw [elements_push, elements_pop, hels, List.tail_cons] at htotal ⊢
    rw [hels] at hstack
    rw [htoken, tokensOf_cons, List.length_append] at htotal
    obtain ⟨stack', hstack', hretries⟩ := hstack.take hk htotal (t := t)
    rw [htoken]
    exact ⟨stack', hstack', .single (.retry hretries)⟩
  | complete _ _ _ hend =>
    rw [htoken] at hend
    exact absurd hend (by simp)
  | @step _ _ _ _ before behind n ht he hsucc _ hn _ ih =>
    have hmem : n ∈ before ++ n :: behind := List.mem_append_right _ List.mem_cons_self
    rw [barred, Bool.or_eq_false_iff] at hn
    obtain ⟨rank', x, rest, rfl, hlt, hstack'⟩ := hstack.step hg ht hsucc hmem hn.2
    obtain ⟨stack', hfinal, hlower⟩ := ih (hs.push hsucc hmem) htotal hstack'
    exact ⟨stack', hfinal, hlower.tail (.push hlt)⟩

theorem length_later_lt {parent id n : NodeId} (hg : graph.WellFormed)
    (h : n ∈ graph.later parent id) :
    (graph.later parent n).length < (graph.later parent id).length := by
  obtain ⟨before, behind, hlater⟩ := List.append_of_mem h
  rw [Graph.later_of_later hg hlater, hlater, List.length_append, List.length_cons]
  omega

/-- Stepping back uses up a try. -/
theorem Retreats.lower (hg : g.EndsApart) (h : Retreats graph full els pending els' pending')
    (hgraph : graph.WellFormed) (hstack : Stacked graph g total els stack) :
    ∃ stack', Stacked graph g total els' stack' ∧ Retries Rank.Lt stack' stack := by
  induction h generalizing stack with
  | @switch e rest pending n halt =>
    obtain ⟨parent, rest, rfl, hn⟩ := exists_parent halt
    have hrev : revisitsIn graph n 0 (parent :: rest) = false := by
      rw [Graph.alternative?] at halt
      simpa using List.find?_some halt
    obtain ⟨next, hsucc, hmem⟩ := Graph.exists_successors_of_mem_later hn g ⟨{}, none⟩
    cases hstack with
    | @push _ _ _ _ y rest' hstacked hframed hlt =>
      obtain ⟨rank', x, rest', hx, hlt, hstack'⟩ := hstacked.step hg rfl hsucc hmem hrev
      refine ⟨_, hstack', .intro [] ?_ (.inr ?_)⟩
      · have hlater := length_later_lt hgraph hn
        rw [tries, tries]
        simp only [Option.isNone_none, if_true]
        omega
      · intro z hz
        obtain rfl := Option.some.inj hz
        obtain ⟨rfl, -⟩ := List.cons.inj hx
        exact hlt
  | back _ _ hrest ih =>
    cases hstack with
    | root => exact absurd rfl hrest.ne_nil
    | push hstacked =>
      obtain ⟨stack', hstack', hretries⟩ := ih hstacked
      exact ⟨stack', hstack', hretries.cons _⟩

end Search

open GrammarGraph.Path

theorem Run.Goes.lower {g : Grammar} {full : Bool} {r r' : Run} {total : ℕ}
    {stack : List (Rank × ℕ)} (hg : g.EndsApart) (h : Goes g full r r') (hs : r.search.Valid g)
    (htotal : r'.tokens.length ≤ total)
    (hstack : Stacked r.search.graph g total r.search.path.elements stack) :
    ∃ stack', Stacked r'.search.graph g total r'.search.path.elements stack' ∧
      Relation.TransGen (Lower Rank.Lt) stack' stack := by
  cases h with
  | taken hpending harrives =>
    refine harrives.lower hg hs rfl (le_trans ?_ htotal) hstack
    rw [tokens, List.length_append]
    exact Nat.le_add_right _ _
  | retreated _ hback =>
    obtain ⟨hgraph, hretreats, -⟩ := Search.backtrack_true hs.two_le hback
    obtain ⟨stack', hstack', hretries⟩ := hretreats.lower hg hs.wellFormed hstack
    simp only [hgraph]
    exact ⟨stack', hstack', .single (.retry hretries)⟩

namespace Parser

variable {p : Parser} {text : List Char} {source : Option String} {r : Run}

/-- The number of tokens, errors included, that a text gives. -/
def total (p : Parser) (text : List Char) (source : Option String) : ℕ :=
  ((p.lexer.stream text source).results p.lexer).1.length

theorem length_tokens_le {stream : Stream}
    (h : (p.lexer.stream text source).Pulls p.lexer r.tokens stream) :
    r.tokens.length ≤ p.total text source := by
  rw [total, h.results_eq (Stream.idle_stream p.lexer text source), List.length_append,
    List.length_map]
  exact Nat.le_add_right _ _

/-- Some number of levels is enough for an iteration. -/
theorem exists_step {stack : List (Rank × ℕ)} (hg : p.grammar.EndsApart)
    (hr : p.Reaches text source r)
    (hstack : Stacked r.search.graph p.grammar (p.total text source) r.search.path.elements stack) :
    ∃ levels o, r.step p.grammar p.lexer p.fullBacktracking levels = some o := by
  cases hf : r.fetch p.lexer with
  | error e => exact ⟨0, _, by rw [Run.step, hf]⟩
  | ok t =>
    obtain ⟨frames, fresh, -, -, hframed, -⟩ := hstack.framed
    have hs := hr.valid
    rw [← Run.search_fetch hf] at hs hframed
    obtain ⟨levels, hlevels⟩ := Search.exists_levels t.pending.head? hg hs hframed
    obtain ⟨e, hstep⟩ := Run.step_eq p.grammar p.fullBacktracking hf
    refine ⟨levels, ?_⟩
    rw [hstep]
    obtain ⟨⟨_ | _, s⟩, hdescend⟩ := Option.isSome_iff_exists.mp hlevels <;> rw [hdescend]
    · exact ⟨_, rfl⟩
    · cases t.pending <;> exact ⟨_, rfl⟩

/-- An iteration that goes on makes the stack lower. -/
theorem exists_lower {t r' : Run} {stack : List (Rank × ℕ)} (hg : p.grammar.EndsApart)
    (hr : p.Reaches text source r) (hf : r.fetch p.lexer = .ok t)
    (hgoes : Run.Goes p.grammar p.fullBacktracking t r')
    (hstack : Stacked r.search.graph p.grammar (p.total text source) r.search.path.elements stack) :
    ∃ stack',
      Stacked r'.search.graph p.grammar (p.total text source) r'.search.path.elements stack' ∧
      Relation.TransGen (Lower Rank.Lt) stack' stack := by
  have hs := hr.valid
  rw [← Run.search_fetch hf] at hs hstack
  refine hgoes.lower hg hs ?_ hstack
  rw [hgoes.tokens_eq hs.two_le]
  exact length_tokens_le (Run.pulls_fetch hr.pulls hf)

theorem Reaches.exists_stacked (hg : p.grammar.EndsApart) (h : p.Reaches text source r) :
    ∃ stack,
      Stacked r.search.graph p.grammar (p.total text source) r.search.path.elements stack := by
  refine h.induct (P := fun r => ∃ stack, Stacked r.search.graph p.grammar (p.total text source)
    r.search.path.elements stack) ⟨_, .root (.base (le_refl _))⟩ ?_
  rintro r t r' hr ⟨stack, hstack⟩ hf hgoes
  obtain ⟨stack', hstack', -⟩ := exists_lower hg hr hf hgoes hstack
  exact ⟨stack', hstack'⟩

/-- The loop ends: by induction on the stack along the path. -/
theorem exists_answer {stack : List (Rank × ℕ)} (hg : p.grammar.EndsApart)
    (hr : p.Reaches text source r)
    (hstack : Stacked r.search.graph p.grammar (p.total text source) r.search.path.elements stack) :
    ∃ bound answer, ∀ levels fuel, bound ≤ levels → bound ≤ fuel →
      r.iterate p.grammar p.lexer p.fullBacktracking levels fuel = some answer := by
  induction stack
    using (wellFounded_lower Rank.wellFounded_lt).transGen.induction generalizing r with
  | _ stack ih =>
    obtain ⟨levels, o, hstep⟩ := exists_step hg hr hstack
    have hiterate : ∀ levels' fuel, levels + 1 ≤ levels' → levels + 1 ≤ fuel →
        ∃ fuel', fuel = fuel' + 1 ∧
        r.step p.grammar p.lexer p.fullBacktracking levels' = some o := by
      intro levels' fuel hlevels hfuel
      obtain ⟨fuel', rfl⟩ := Nat.exists_eq_add_one_of_ne_zero (Nat.ne_zero_of_lt hfuel)
      exact ⟨fuel', rfl, Run.step_mono (le_trans (Nat.le_succ levels) hlevels) hstep⟩
    cases o with
    | done s =>
      refine ⟨levels + 1, .ok s, ?_⟩
      intro levels' fuel hlevels hfuel
      obtain ⟨fuel', rfl, hstep'⟩ := hiterate levels' fuel hlevels hfuel
      rw [Run.iterate, hstep']
    | failed e =>
      refine ⟨levels + 1, .error e, ?_⟩
      intro levels' fuel hlevels hfuel
      obtain ⟨fuel', rfl, hstep'⟩ := hiterate levels' fuel hlevels hfuel
      rw [Run.iterate, hstep']
    | goOn r' =>
      obtain ⟨t, hf, hgoes⟩ := Run.goes_of_step hr.valid.two_le hstep
      obtain ⟨stack', hstack', hlower⟩ := exists_lower hg hr hf hgoes hstack
      obtain ⟨bound, answer, hanswer⟩ := ih stack' hlower (hr.tail ⟨levels, hstep⟩) hstack'
      refine ⟨max levels bound + 1, answer, ?_⟩
      intro levels' fuel hlevels hfuel
      obtain ⟨fuel', rfl, hstep'⟩ := hiterate levels' fuel
        (le_trans (Nat.succ_le_succ (le_max_left _ _)) hlevels)
        (le_trans (Nat.succ_le_succ (le_max_left _ _)) hfuel)
      rw [Run.iterate, hstep']
      exact hanswer levels' fuel'
        (le_trans (le_max_right levels bound) (le_trans (Nat.le_succ _) hlevels))
        (le_trans (le_max_right levels bound) (Nat.le_of_succ_le_succ hfuel))

/-- Every bound from some size on lets the search find its answer. -/
theorem exists_bound (hg : p.grammar.EndsApart) (text : List Char) (source : Option String) :
    ∃ bound answer, ∀ fuel, bound ≤ fuel → p.searchWithin fuel text source = some answer := by
  have hstart : p.Reaches text source (p.start text source) := .refl
  obtain ⟨stack, hstack⟩ := hstart.exists_stacked hg
  obtain ⟨bound, answer, hanswer⟩ := exists_answer hg hstart hstack
  exact ⟨bound, answer, fun fuel hfuel => hanswer fuel fuel hfuel hfuel⟩

/-- Where no body links to the end of a rule the search gives an answer, the one that every bound
from some size on lets it find.  Wherever the loop stands on the way, no descent needs more than
finitely many levels. -/
theorem search_terminates (p : Parser) (hg : p.grammar.EndsApart) (text : List Char)
    (source : Option String) :
    (∃ bound answer, ∀ fuel, bound ≤ fuel → p.searchWithin fuel text source = some answer) ∧
    ∀ r, p.Reaches text source r →
      (∀ t, ∃ levels, (r.search.descend p.grammar t levels).isSome) ∧
      ∃ levels, (r.search.descendToEnd p.grammar levels).isSome := by
  constructor
  · exact exists_bound hg text source
  · intro r hr
    obtain ⟨stack, hstack⟩ := hr.exists_stacked hg
    obtain ⟨frames, fresh, -, -, hframed, -⟩ := hstack.framed
    constructor
    · intro t
      exact Search.exists_levels (some t) hg hr.valid hframed
    · exact Search.exists_levels none hg hr.valid hframed

end Parser

namespace Sample.Nullable

def x : TokenType := ⟨1, .keyword "x" true⟩

/-- Refers to itself behind a loop over what can be empty. -/
def loops : Rule where
  name := "loops"
  expand := some fun _ => .ofPiece (.sequence [.many (.optional (.token x)), .optional (.rule 0)])

def grammar : Grammar := { types := ⟨[x]⟩, rules := [loops], root := 0, ident := none }

theorem search_terminates_nullable : grammar.EndsApart ∧
    (∃ bound answer, ∀ fuel, bound ≤ fuel →
      (Parser.ofGrammar grammar).searchWithin fuel "x x".toList none = some answer) ∧
    ∀ r, (Parser.ofGrammar grammar).Reaches "x x".toList none r →
      (∀ t, ∃ levels, (r.search.descend grammar t levels).isSome) ∧
      ∃ levels, (r.search.descendToEnd grammar levels).isSome := by
  have hg : grammar.EndsApart := Grammar.endsApart_of_atSockets (by
    simp [grammar, loops, Body.ofPiece, Piece.many, Piece.optional, Piece.token, Piece.rule])
  exact ⟨hg, Parser.search_terminates (.ofGrammar grammar) hg "x x".toList none⟩

end Sample.Nullable

namespace Sample.Plugged

/-- Links the entry to the plug of a reference to the rule itself, and the plug to the socket. -/
def body : Body := [.part (.rule 0), .chain [.entry, .plug (.part 0), .part 0]]

def again : Rule := { name := "again", expand := some fun _ => body }

def grammar : Grammar := { types := ⟨[]⟩, rules := [again], root := 0, ident := none }

variable {a b c : Graph} {els : List PathElement} {s : Search} {token : Option Token}
  {m n x y z : NodeId}

/-- Behind one more end of the rule a fresh start of it can be stepped onto. -/
def Reenters (graph : Graph) (els : List PathElement) : Prop :=
  ∀ b m, graph ≤ b → graph.size ≤ m → (b.kind m).startedRule? = some 0 →
    revisitsIn b m 1 els = false

/-- An end of the rule that nothing started makes up for a start of it that is open. -/
theorem Reenters.plugged (h : Reenters a els) (hle : a ≤ c) (hx : c.kind x = .junction)
    (hy : c.kind y = .ruleEnd 0 none) (hm : a.size ≤ m) (hxm : x ≠ m) (hym : y ≠ m)
    (hrule : (c.kind m).startedRule? = some 0) :
    revisitsIn c m 0 (⟨y, none⟩ :: ⟨x, none⟩ :: els) = false := by
  rw [revisitsIn_of_ends hrule rfl (by rw [hy]; rfl) hym, if_pos rfl]
  rw [revisitsIn_skip hrule rfl (by rw [hx]; rfl) (by rw [hx]; rfl) hxm]
  exact h c m hle hm hrule

theorem Reenters.started {stop : NodeId} (h : Reenters a els) (hle : a ≤ b)
    (hx : b.kind x = .junction) (hy : b.kind y = .ruleEnd 0 none)
    (hz : b.kind z = .ruleStart 0 none stop) (hlt : x < b.size ∧ y < b.size ∧ z < b.size) :
    Reenters b (⟨z, none⟩ :: ⟨y, none⟩ :: ⟨x, none⟩ :: els) := by
  intro c m hc hm hrule
  have hne : ∀ {k}, k < b.size → k ≠ m := fun hk => Nat.ne_of_lt (lt_of_lt_of_le hk hm)
  obtain ⟨hltx, hlty, hltz⟩ := hlt
  rw [← Graph.kind_of_le hc hltx] at hx
  rw [← Graph.kind_of_le hc hlty] at hy
  rw [← Graph.kind_of_le hc hltz] at hz
  rw [revisitsIn_of_starts hrule rfl (by rw [hz]; rfl) (hne hltz), if_pos rfl]
  exact h.plugged (le_trans hle hc) hx hy (le_trans hle.1 hm) (hne hltx) (hne hlty) hrule

/-- The descent stands on a start of the rule, with which it is not going to be done. -/
structure Endless (s : Search) : Prop where
  tip : ∃ n stop, s.path.tip? = some ⟨n, none⟩ ∧ s.graph.kind n = .ruleStart 0 none stop ∧
    stop < s.graph.size
  lt_size : ∀ e ∈ s.path.elements, e.node < s.graph.size
  reenters : Reenters s.graph s.path.elements

theorem barred_eq_false {kind : NodeKind} (hk : s.graph.kind n = kind)
    (hkind : kind.isSlot = false ∧ kind.startedRule? = none)
    (h : ∀ e ∈ s.path.elements, e.node ≠ n) : Search.barred token s n = false := by
  have hrev : revisitsIn s.graph n 0 s.path.elements = false := by
    refine not_revisits (fun hmem => ?_) (fun rule hrule => ?_) 0
    · obtain ⟨e, he, heq⟩ := List.mem_map.mp hmem
      exact h e (List.takeWhile_subset _ he) heq
    · rw [hk, hkind.2] at hrule
      cases hrule
  rw [Search.barred, Path.revisits, hrev, hk, hkind.1, Bool.and_false, Bool.or_false]

/-- Three steps on the descent stands on a start of the rule again. -/
theorem Endless.step (h : Endless s) : ∃ s', Endless s' ∧
    ∀ levels, s'.descendFor grammar token levels = none →
    s.descendFor grammar token (levels + 3) = none := by
  obtain ⟨⟨n, stop, htip, hk, hstop⟩, hlt, hreenters⟩ := h
  have hexpand : grammar.expand? 0 = some fun _ => body := rfl
  have hsucc := Graph.successors_of_ruleStart hk hexpand ⟨s.path, token⟩
  have hle := (Graph.addBody_hasBody s.graph body stop).le
  have hholds := Graph.holds_addBody hstop body
  generalize (s.graph.addBody body stop).2 = b at hsucc hle hholds
  generalize hx : s.graph.size = x at hsucc hholds hlt
  have hentry : b.kind x = .junction := hholds.kind 0 _ rfl
  have hplug : b.kind (x + 2) = .ruleEnd 0 none := hholds.kind 2 _ rfl
  have hsocket : b.kind (x + 3) = .ruleStart 0 none (x + 2) := hholds.kind 3 _ rfl
  have hsize : ∀ i < 4, x + i < b.size :=
    fun i hi => lt_of_lt_of_le (Nat.add_lt_add_left hi x) hholds.size_le
  have hfresh : ∀ i, ∀ e ∈ s.path.elements, e.node ≠ x + i := fun i e he =>
    Nat.ne_of_lt (lt_of_lt_of_le (hlt e he) (Nat.le_add_right x i))
  let entered := Search.push grammar { s with graph := b } x none
  let plugged := entered.push grammar (x + 2) none
  refine ⟨plugged.push grammar (x + 3) none, ⟨⟨_, _, rfl, hsocket, hsize 2 (by decide)⟩, ?_, ?_⟩,
    ?_⟩
  · have hels : ∀ e ∈ s.path.elements, e.node < b.size := fun e he =>
      lt_of_lt_of_le (hlt e he) (le_of_lt (hsize 0 (by decide)))
    exact List.forall_mem_cons.mpr ⟨hsize 3 (by decide), List.forall_mem_cons.mpr
      ⟨hsize 2 (by decide), List.forall_mem_cons.mpr ⟨hsize 0 (by decide), hels⟩⟩⟩
  · exact hreenters.started hle hentry hplug hsocket
      ⟨hsize 0 (by decide), hsize 2 (by decide), hsize 3 (by decide)⟩
  · intro levels hnone
    have hentered : Search.barred token { s with graph := b } x = false :=
      barred_eq_false hentry ⟨rfl, rfl⟩ (hfresh 0)
    have hplugged : Search.barred token entered (x + 2) = false :=
      barred_eq_false hplug ⟨rfl, rfl⟩
        (List.forall_mem_cons.mpr ⟨Nat.ne_of_lt (Nat.lt_add_of_pos_right (by decide)), hfresh 2⟩)
    have hstarted : Search.barred token plugged (x + 3) = false := by
      have hrev : revisitsIn b (x + 3) 0 plugged.path.elements = false :=
        hreenters.plugged hle hentry hplug (hx ▸ Nat.le_add_right x 3)
          (Nat.ne_of_lt (Nat.lt_add_of_pos_right (by decide))) (Nat.ne_of_lt (Nat.lt_succ_self _))
          (by rw [hsocket]; rfl)
      have hslot : (plugged.graph.kind (x + 3)).isSlot = false := congrArg NodeKind.isSlot hsocket
      rw [Search.barred, hslot, Bool.and_false, Bool.false_or]
      exact hrev
    refine Search.descendFor_eq_none htip (by simp [Search.expected?, htip, hk]) hsucc hentered ?_
    refine Search.descendFor_eq_none_of_wired rfl hentry
      ⟨rfl, rfl⟩ (hholds.wired 0 _ rfl) hplugged ?_
    exact Search.descendFor_eq_none_of_wired rfl hplug ⟨rfl, rfl⟩ (hholds.wired 2 _ rfl)
      hstarted hnone

theorem Endless.descendFor_eq_none (h : Endless s) (levels : ℕ) :
    s.descendFor grammar token levels = none := by
  have hmany : ∀ k s, Endless s → s.descendFor grammar token (3 * k) = none := by
    intro k
    induction k with
    | zero => exact fun s _ => Search.descendFor_zero
    | succ k ih =>
      intro s h
      obtain ⟨s', h', hstep⟩ := h.step
      exact hstep _ (ih s' h')
  cases hdescend : s.descendFor grammar token levels with
  | none => rfl
  | some r =>
    have hmore :=
      Search.descendFor_mono (Nat.le_mul_of_pos_left levels (by decide : 0 < 3)) hdescend
    exact absurd ((hmany levels s h).symm.trans hmore) nofun

theorem endless_start : Endless (.start grammar) := by
  refine ⟨⟨1, 0, rfl, rfl, Nat.zero_lt_two⟩, List.forall_mem_singleton.mpr Nat.one_lt_two, ?_⟩
  intro b m hle hm hrule
  have hne : 1 ≠ m := Nat.ne_of_lt hm
  rw [show (Search.start grammar).path.elements = [⟨1, none⟩] from rfl,
    revisitsIn_cons hrule rfl, if_neg hne, Graph.kind_of_le hle Nat.one_lt_two]
  rfl

def parser (full : Bool) : Parser := { Parser.ofGrammar grammar with fullBacktracking := full }

/-- A rule that links its entry to the plug of a reference to itself is entered again and again,
although it is open and no token was taken.  So neither descent comes back from the start, and there
is no answer for the empty text. -/
theorem search_never_ends :
    (∀ t levels, (Search.start grammar).descend grammar t levels = none) ∧
    (∀ levels, (Search.start grammar).descendToEnd grammar levels = none) ∧
    ∀ full fuel, (parser full).searchWithin fuel [] none = none := by
  have hnone : ∀ token levels, (Search.start grammar).descendFor grammar token levels = none :=
    fun _ => endless_start.descendFor_eq_none
  refine ⟨fun t => hnone (some t), hnone none, fun full fuel => ?_⟩
  cases fuel with
  | zero => rfl
  | succ fuel =>
    have hfetch : ((parser full).start [] none).fetch (parser full).lexer =
        .ok ((parser full).start [] none) := rfl
    obtain ⟨e, hstep⟩ := Run.step_eq (parser full).grammar (parser full).fullBacktracking hfetch
    have hdescend :
        Search.descendFor (parser full).grammar ((parser full).start [] none).pending.head?
        (fuel + 1) ((parser full).start [] none).search = none := hnone none _
    rw [Parser.searchWithin, Run.iterate, hstep, hdescend]

end Sample.Plugged

end GrammarGraph
