import GrammarGraph.Proofs.Enumeration
import GrammarGraph.Proofs.Hooks
import GrammarGraph.Proofs.Modes

/-!
# Full backtracking is exhaustive

The search and the enumeration of `Search.explore` come to the same path, and both do come to an end
if the bodies keep the ends of rules apart.  What the search does between two iterations is a state
of the enumeration in which some attempts are still to be made:

* `Search.Answers`: what the attempt comes to that the search is making at the tip.
* `Search.Resumes`: what the attempts come to that are left further up the path, once that one is in
  vain.
-/

namespace GrammarGraph

namespace Search

variable {g : Grammar} {s s' : Search} {token : Option Token} {tokens rest : List Token} {t : Token}
  {answer : Answer} {n : NodeId} {ns : List NodeId} {graph : Graph} {els els' : List PathElement}
  {e parent : PathElement} {pending pending' : List Token} {outcome : Option Search}

/-! ## The attempt at the tip -/

/-- What the enumeration comes to where the search stands: it explores from the tip, or the slot at
the tip takes the next token first. -/
inductive Answers (g : Grammar) : List Token → Search → Answer → Prop
  | explored {tokens : List Token} {s : Search} {answer : Answer} : s.expected? = none →
      Explores g tokens s answer → Answers g tokens s answer
  | taken {t : Token} {rest : List Token} {s : Search} {tip : PathElement} {type : TokenType}
      {answer : Answer} : s.path.tip? = some tip → s.expected? = some type →
        t.hasType type.id = true →
      Explores g rest (s.pop.push g tip.node (some t)) answer →
      Answers g (t :: rest) s (answer.orKeep (some s.graph))
  | refused {tokens : List Token} {s : Search} {type : TokenType} : s.expected? = some type →
      tokens.head?.any (·.hasType type.id) = false → Answers g tokens s (.nothing none)

/-- Unless a slot waits for a token, the search explores from the tip. -/
theorem Answers.explores (h : Answers g tokens s answer) (he : s.expected? = none) :
    Explores g tokens s answer := by
  cases h with
  | explored _ hexplores => exact hexplores
  | taken _ he' => exact absurd he' (by rw [he]; simp)
  | refused he' => exact absurd he' (by rw [he]; simp)

theorem expected?_push (g : Grammar) (s : Search) (n : NodeId) (type : TokenType) :
    (s.push g n none).expected? = some type ↔
      ∃ ident hook, s.graph.kind n = .slot type ident hook := by
  rw [expected?, tip?_eq elements_push, Option.bind_some, graph_push]
  cases hk : s.graph.kind n <;> simp

theorem expected?_push_some (g : Grammar) (s : Search) (n : NodeId) (t : Token) :
    (s.push g n (some t)).expected? = none := by
  rw [expected?, tip?_eq elements_push, Option.bind_some]
  split
  · next hnone => exact absurd hnone (by simp)
  · rfl

/-- An attempt is what the search does once it stepped onto the node. -/
theorem attempts_of_answers (hrev : s.path.revisits s.graph n = false)
    (h : Answers g tokens (s.push g n none) answer) : Attempts g tokens s n answer := by
  generalize htip : s.push g n none = s₁ at h
  cases h with
  | explored he hexplores =>
    refine Yields.of_eq hexplores ?_
    intro fuel hexplore
    rw [attempt_of_not_revisits hrev]
    rw [← htip] at he hexplore
    split
    · next type ident hook hk =>
      exact absurd ((expected?_push g s n type).mpr ⟨ident, hook, hk⟩) (by rw [he]; simp)
    · next type ident hook _ _ hk =>
      exact absurd ((expected?_push g s n type).mpr ⟨ident, hook, hk⟩) (by rw [he]; simp)
    · exact hexplore
  | @taken t rest s₁ tip type answer ht he htype hexplores =>
    refine Yields.of_eq (hexplores.map (.orKeep (some s₁.graph))) ?_
    intro fuel hexplore
    rw [attempt_of_not_revisits hrev]
    rw [← htip] at ht he hexplore ⊢
    obtain rfl := Option.some.inj ht
    obtain ⟨ident, hook, hk⟩ := (expected?_push g s n type).mp he
    rw [pop_push_none] at hexplore
    simp only [hk, htype, if_true]
    exact hexplore
  | @refused _ _ type he hnone =>
    refine Yields.of_eq (yields_const (.nothing none)) ?_
    intro fuel _
    rw [attempt_of_not_revisits hrev]
    rw [← htip] at he
    obtain ⟨ident, hook, hk⟩ := (expected?_push g s n type).mp he
    cases tokens with
    | nil => simp only [hk]
    | cons t rest =>
      rw [List.head?_cons, Option.any_some] at hnone
      simp only [hk, hnone]
      rfl

/-- What the enumeration does not step onto, be it a node to return to or a slot for no
token, is attempted in vain. -/
theorem attempts_of_barred (h : barred tokens.head? s n = true) :
    Attempts g tokens s n (.nothing none) := by
  rw [barred, Bool.or_eq_true, Bool.and_eq_true] at h
  by_cases hrev : s.path.revisits s.graph n = true
  · exact attempts_of_revisits hrev
  · obtain ⟨hnone, hslot⟩ := h.resolve_right hrev
    refine attempts_of_answers (Bool.eq_false_iff.mpr hrev) ?_
    obtain ⟨type, ident, hook, hk⟩ : ∃ type ident hook, s.graph.kind n = .slot type ident hook := by
      cases hk : s.graph.kind n <;> rw [hk] at hslot
      case slot type ident hook => exact ⟨type, ident, hook, rfl⟩
      all_goals exact absurd hslot (by simp [NodeKind.isSlot])
    refine .refused ((expected?_push g s n type).mpr ⟨ident, hook, hk⟩) ?_
    rw [Option.isNone_iff_eq_none.mp hnone]
    rfl

theorem attempts_of_not_barred (h : barred tokens.head? s n = false)
    (ha : Answers g tokens (s.push g n none) answer) : Attempts g tokens s n answer := by
  rw [barred, Bool.or_eq_false_iff] at h
  exact attempts_of_answers h.2 ha

/-- A node is attempted in vain, be it barred or not, if what the search does on it is in vain. -/
theorem attempts_nothing
    (h : barred tokens.head? s n = false → Answers g tokens (s.push g n none) (.nothing none)) :
    Attempts g tokens s n (.nothing none) := by
  cases hbarred : barred tokens.head? s n with
  | true => exact attempts_of_barred hbarred
  | false => exact attempts_of_not_barred hbarred (h hbarred)

/-- A descent that fails is an attempt in vain. -/
theorem answers_of_fails (h : Fails g tokens.head? s) : Answers g tokens s (.nothing none) := by
  induction h with
  | @astray s ht =>
    refine .explored (by rw [expected?, ht]; rfl) (explores_of_explore_succ ?_)
    intro fuel
    simp only [explore, ht]
  | refused ht he hany => exact .refused he hany
  | @closed s tip ht he hsucc =>
    refine .explored he (explores_of_explore_succ ?_)
    intro fuel
    simp only [explore, ht]
    rcases hr : s.graph.successors g tip.node ⟨s.path, tokens.head?⟩ with ⟨_ | next, graph⟩
    · rfl
    · rw [hr] at hsucc
      exact absurd hsucc (by simp)
  | @exhausted s tip next graph ht he hsucc hend _ ih =>
    refine .explored he (explores_of_attemptsEach ht hsucc hend ?_)
    rw [← List.append_nil next]
    exact attemptsEach_append (fun m hm => attempts_nothing (ih m hm)) attemptsEach_nil

theorem attempts_of_fails
    (h : barred tokens.head? s n = false → Fails g tokens.head? (s.push g n none)) :
    Attempts g tokens s n (.nothing none) := attempts_nothing fun hn => answers_of_fails (h hn)

/-! ## The attempts further up -/

/-- What the enumeration comes to once the tip of the path was in vain with the tokens that
were left behind it: the nodes behind the tip are attempted, and if they are in vain as well,
then so was the parent. -/
inductive Resumes (g : Grammar) : Graph → List PathElement → List Token → Option Search → Prop
  | root {graph : Graph} {e : PathElement} {tokens : List Token} : Resumes g graph [e] tokens none
  | found {graph : Graph} {e parent : PathElement} {rest : List PathElement} {tokens : List Token}
      {s : Search} : AttemptsEach g (e.token.toList ++ tokens) (graph.later parent.node e.node)
        (ofElements graph g (parent :: rest)) (.found s) →
      Resumes g graph (e :: parent :: rest) tokens (some s)
  | back {graph : Graph} {e parent : PathElement} {rest : List PathElement} {tokens : List Token}
      {kept : Option Graph} {outcome : Option Search} :
      AttemptsEach g (e.token.toList ++ tokens) (graph.later parent.node e.node)
        (ofElements graph g (parent :: rest)) (.nothing kept) →
      Resumes g (kept.getD graph) (parent :: rest) (e.token.toList ++ tokens) outcome →
      Resumes g graph (e :: parent :: rest) tokens outcome

/-- An answer at the tip leads to the outcome of the whole enumeration. -/
def LeadsTo (g : Grammar) (graph : Graph) (els : List PathElement) (tokens : List Token)
    (outcome : Option Search) : Answer → Prop
  | .found s => outcome = some s
  | .nothing kept => Resumes g (kept.getD graph) els tokens outcome

/-- The outcome of the whole enumeration, resumed where the search stands. -/
def Completes (g : Grammar) (tokens : List Token) (s : Search) (outcome : Option Search) : Prop :=
  ∃ answer, Answers g tokens s answer ∧ LeadsTo g s.graph s.path.elements tokens outcome answer

theorem Answers.graph_le (h : Answers g tokens s answer) : s.graph ≤ answer.arena s.graph := by
  cases h with
  | explored _ hexplores =>
    obtain ⟨bound, hexplores⟩ := hexplores
    exact arena_explore (hexplores bound (le_refl bound))
  | taken _ _ _ hexplores =>
    obtain ⟨bound, hexplores⟩ := hexplores
    have hle := arena_explore (hexplores bound (le_refl bound))
    rw [Answer.arena_orKeep]
    exact hle
  | refused => exact le_refl s.graph

/-- If no attempt behind the tip is left, then only the parent is. -/
theorem Resumes.of_alternative?_eq_none (h : graph.alternative? (e :: parent :: els) = none)
    (hr : Resumes g graph (parent :: els) (e.token.toList ++ tokens) outcome) :
    Resumes g graph (e :: parent :: els) tokens outcome := by
  rw [Graph.alternative?, List.find?_eq_none] at h
  have hnext : AttemptsEach g (e.token.toList ++ tokens) (graph.later parent.node e.node)
      (ofElements graph g (parent :: els)) (.nothing none) := by
    rw [← List.append_nil (graph.later _ _)]
    refine attemptsEach_append (fun m hm => attempts_of_revisits ?_) attemptsEach_nil
    rw [Path.revisits, elements_ofElements]
    simpa using h m hm
  exact .back hnext hr

/-- A token on the tip is one that was left before it. -/
theorem Resumes.untake (h : Resumes g graph (⟨n, some t⟩ :: els) tokens outcome) :
    Resumes g graph (⟨n, none⟩ :: els) (t :: tokens) outcome := by
  cases h with
  | root => exact .root
  | found hnext => exact .found hnext
  | back hnext hr => exact .back hnext hr

theorem LeadsTo.untake (h : LeadsTo g graph (⟨n, some t⟩ :: els) tokens outcome answer) :
    LeadsTo g graph (⟨n, none⟩ :: els) (t :: tokens) outcome (answer.orKeep (some graph)) := by
  cases answer with
  | found x => exact h
  | nothing kept =>
    rw [Answer.orKeep, LeadsTo, Option.getD_or]
    exact Resumes.untake h

/-- From the attempt at a node to the attempts from that node on. -/
theorem attemptsEach_of_answers (hreplay : s.IsReplay g) (hels : s.path.elements = parent :: els)
    (hlt : ∀ e ∈ s.path.elements, e.node < s.graph.size) (hrev : s.path.revisits s.graph n = false)
    (ha : Answers g tokens (s.push g n none) answer)
    (hleads : LeadsTo g s.graph (⟨n, none⟩ :: parent :: els) tokens outcome answer) :
    ∃ answer', AttemptsEach g tokens (n :: s.graph.later parent.node n) s answer' ∧
      LeadsTo g s.graph (parent :: els) tokens outcome answer' ∧
      (answer' = .nothing none → answer = .nothing none) := by
  have hn := attempts_of_answers hrev ha
  cases answer with
  | found x => exact ⟨.found x, attemptsEach_cons_found hn, hleads, fun h => h⟩
  | nothing kept =>
    -- The arena that is left agrees with the one before on the path and on the links of the parent.
    have hle : s.graph ≤ kept.getD s.graph := ha.graph_le
    have hsearch : ofElements (kept.getD s.graph) g (parent :: els) =
        { s with graph := kept.getD s.graph } := by
      rw [ofElements, ← hels, Path.replay_of_le hle hlt, ← hreplay]
    have hlater : (kept.getD s.graph).later parent.node n = s.graph.later parent.node n :=
      Graph.later_of_le hle (hlt parent (hels ▸ List.mem_cons_self))
    cases hleads with
    | @found _ _ _ _ _ x hnext =>
      rw [hlater, hsearch] at hnext
      exact ⟨.found x, attemptsEach_cons hn hnext, rfl, fun h => absurd h (by simp)⟩
    | @back _ _ _ _ _ kept' _ hnext hr =>
      rw [hlater, hsearch] at hnext
      refine ⟨.nothing (kept'.or kept), attemptsEach_cons hn hnext, ?_, fun h => ?_⟩
      · rw [LeadsTo, Option.getD_or]
        exact hr
      · rw [Answer.nothing.injEq, Option.or_eq_none_iff] at h
        rw [h.2]

/-! ## Stepping back and arriving -/

/-- What is left for later stays there when the search steps back. -/
theorem Retreats.append {full : Bool} (h : Retreats graph full els pending els' pending')
    (ahead : List Token) : Retreats graph full els (pending ++ ahead) els' (pending' ++ ahead) := by
  induction h with
  | switch halt =>
    rw [List.append_assoc]
    exact .switch halt
  | back halt hbarrier _ ih =>
    rw [List.append_assoc] at ih
    exact .back halt hbarrier ih

/-- Where the search steps back the enumeration goes on with the alternative that
the search goes on with. -/
theorem Retreats.resumes (h : Retreats graph true els tokens els' rest) (hg : graph.WellFormed)
    (hlt : ∀ e ∈ els, e.node < graph.size)
    (hc : Completes g rest (ofElements graph g els') outcome) :
    Resumes g graph els tokens outcome := by
  induction h with
  | @switch e els tokens n halt =>
    obtain ⟨parent, els, rfl, -⟩ := exists_parent halt
    obtain ⟨hn, before, behind, hlater, hbefore⟩ := List.find?_eq_some_iff_append.mp halt
    obtain ⟨answer, ha, hleads⟩ := hc
    rw [ofElements_cons] at ha hleads
    rw [elements_push, elements_ofElements, graph_push, graph_ofElements] at hleads
    have hparent : ∀ e' ∈ (ofElements graph g (parent :: els)).path.elements,
        e'.node < graph.size := by
      rw [elements_ofElements]
      exact fun e' he' => hlt e' (List.mem_cons_of_mem _ he')
    have hrev : (ofElements graph g (parent :: els)).path.revisits graph n = false := by
      rw [Path.revisits, elements_ofElements]
      simpa using hn
    obtain ⟨answer', hnext, hleads', -⟩ := attemptsEach_of_answers (isReplay_ofElements graph g _)
      (elements_ofElements graph g _) hparent hrev ha hleads
    rw [graph_ofElements, Graph.later_of_later hg hlater] at hnext
    have hskip :
        ∀ m ∈ before, (ofElements graph g (parent :: els)).path.revisits graph m = true := by
      rintro m hm
      rw [Path.revisits, elements_ofElements]
      simpa using hbefore m hm
    have hall := attemptsEach_append (fun m hm => attempts_of_revisits (hskip m hm)) hnext
    rw [← hlater] at hall
    cases answer' with
    | found x =>
      obtain rfl : outcome = some x := hleads'
      exact .found hall
    | nothing kept => exact .back hall hleads'
  | @back e els els' tokens rest halt _ hrest ih =>
    obtain ⟨parent, els, rfl⟩ := List.exists_cons_of_ne_nil hrest.ne_nil
    exact .of_alternative?_eq_none halt (ih (fun e' he' => hlt e' (List.mem_cons_of_mem _ he')) hc)

/-- Where no alternative is left the enumeration finds nothing more. -/
theorem resumes_of_alternative?_eq_none (hnil : els ≠ [])
    (h : ∀ els', els' <:+ els → graph.alternative? els' = none) :
    Resumes g graph els tokens none := by
  induction els generalizing tokens with
  | nil => exact absurd rfl hnil
  | cons e els ih =>
    cases els with
    | nil => exact .root
    | cons parent els =>
      refine .of_alternative?_eq_none (h _ (List.suffix_refl _))
        (ih (List.cons_ne_nil _ _) fun els' hels' => ?_)
      exact h els' (hels'.trans (List.suffix_cons _ _))

/-- The descent for a token arrives where the enumeration takes it. -/
theorem Arrives.answers (h : Arrives g (some t) s s') (hs : s.Valid g) (hreplay : s.IsReplay g)
    (hc : Completes g rest s' outcome) : ∃ answer, Answers g (t :: rest) s answer ∧
      LeadsTo g s.graph s.path.elements (t :: rest) outcome answer ∧ answer ≠ .nothing none := by
  induction h with
  | @taken s tip type ht he hany =>
    obtain ⟨els, hels⟩ := exists_rest ht
    obtain ⟨hnone, -⟩ := isSlot_of_expected? ht he
    obtain ⟨answer, ha, hleads⟩ := hc
    rw [elements_push, elements_pop, hels, List.tail_cons, graph_push, graph_pop] at hleads
    have hexplores := ha.explores (expected?_push_some g s.pop tip.node t)
    obtain ⟨node, token⟩ := tip
    obtain rfl : token = none := hnone
    refine ⟨answer.orKeep (some s.graph), .taken ht he hany hexplores, ?_, answer.orKeep_some_ne _⟩
    rw [hels]
    exact hleads.untake
  | complete _ _ _ hend =>
    exact absurd hend (by simp)
  | @step s s' tip graph before behind n ht he hsucc hbefore hn harrives ih =>
    obtain ⟨els, hels⟩ := exists_rest ht
    have hleaves := Graph.leaves_of_successors hsucc
    have hreplay' := hreplay.of_le hleaves.le hs.lt_size
    have hlater : graph.later tip.node n = behind := by
      rw [Graph.later_of_le hleaves.le (hs.lt_size tip (hels ▸ List.mem_cons_self))]
      exact hleaves.later_of_append hs.wellFormed
    obtain ⟨answer, ha, hleads, hne⟩ :=
      ih (hs.push hsucc (List.mem_append_right _ List.mem_cons_self)) (hreplay'.push n none) hc
    rw [elements_push, hels, graph_push] at hleads
    rw [barred, Bool.or_eq_false_iff] at hn
    obtain ⟨answer', hnext, hleads', hne'⟩ := attemptsEach_of_answers hreplay' hels
      (fun e he => lt_of_lt_of_le (hs.lt_size e he) hleaves.le.1) hn.2 ha hleads
    rw [hlater] at hnext
    have hall : AttemptsEach g (t :: rest) (before ++ n :: behind) { s with graph } answer' :=
      attemptsEach_append (fun m hm => attempts_of_fails (hbefore m hm)) hnext
    refine ⟨answer', .explored he (explores_of_attemptsEach ht hsucc (fun hnil => ?_) hall), ?_,
      fun h => hne (hne' h)⟩
    · exact absurd hnil (by simp)
    · rw [hels]
      cases answer' with
      | found x => exact hleads'
      | nothing kept =>
        cases kept with
        | none => exact absurd (hne' rfl) hne
        | some kept => exact hleads'

/-- The descent to the end arrives where the enumeration accepts. -/
theorem Arrives.answers_found (h : Arrives g none s s') : Answers g [] s (.found s') := by
  induction h with
  | taken _ _ hany => exact absurd hany (by simp)
  | @complete s tip graph ht he hsucc hend =>
    refine .explored he (explores_of_explore_succ ?_)
    intro fuel
    have hsucc' :
        s.graph.successors g tip.node ⟨s.path, ([] : List Token).head?⟩ = (some [], graph) := hsucc
    have hruleEnd : (s.graph.kind tip.node).isRuleEnd = true := by simpa using hend
    simp only [explore, ht, hsucc', hruleEnd]
    rfl
  | @step s s' tip graph before behind n ht he hsucc hbefore hn _ ih =>
    have hnext : AttemptsEach g [] (n :: behind) { s with graph } (.found s') :=
      attemptsEach_cons_found (attempts_of_not_barred hn ih)
    have hall : AttemptsEach g [] (before ++ n :: behind) { s with graph } (.found s') :=
      attemptsEach_append (fun m hm => attempts_of_fails (hbefore m hm)) hnext
    refine .explored he (explores_of_attemptsEach ht hsucc (fun hnil => ?_) hall)
    exact absurd hnil (by simp)

end Search

theorem Run.head?_append {pending ahead : List Token} (h : pending = [] → ahead = []) :
    (pending ++ ahead).head? = pending.head? := by
  cases pending with
  | nil => rw [h rfl, List.append_nil]
  | cons => rfl

/-- Where an iteration goes on the enumeration is resumed as it is behind the iteration. -/
theorem Run.Goes.completes {g : Grammar} {r r' : Run} {ahead : List Token} {outcome : Option Search}
    (h : Goes g true r r') (hnone : r.pending = [] → ahead = []) (hs : r.search.Valid g)
    (hreplay : r.search.IsReplay g) (hrev : Path.Reversible r.search.graph g r.search.path.elements)
    (hc : Search.Completes g (r'.pending ++ ahead) r'.search outcome) :
    Search.Completes g (r.pending ++ ahead) r.search outcome := by
  cases h with
  | taken hp harrives =>
    rw [hp, List.cons_append]
    obtain ⟨answer, ha, hleads, -⟩ := harrives.answers hs hreplay hc
    exact ⟨answer, ha, hleads⟩
  | @retreated s pending hfails hback =>
    rw [← head?_append hnone] at hfails
    obtain ⟨hgraph, hretreats, hreplay'⟩ := Search.backtrack_true hs.two_le hback
    have hsearch := hreplay' hreplay hrev
    rw [Search.IsReplay, hgraph] at hsearch
    have hs' : s = .ofElements r.search.graph g s.path.elements := by
      rw [Search.ofElements, ← hsearch, ← hgraph]
    rw [hs'] at hc
    refine ⟨.nothing none, Search.answers_of_fails hfails, ?_⟩
    exact (hretreats.append ahead).resumes hs.wellFormed hs.lt_size hc

namespace Parser

variable {p : Parser} {text : List Char} {source : Option String} {r : Run}

/-- The enumeration that is resumed where the loop stands comes to what the loop comes to, unless a
barrier stops the loop. -/
theorem completes_of_iterate (hooks : p.HooksRevert text source) {levels : Nat} :
    ∀ {fuel : Nat} {r : Run} {ahead : List Token} {result : Except ParseError Search},
      p.Reaches text source r → (r.stream.results p.lexer).1 = ahead.map .ok →
      (p.fullBacktracking = true ∨ result.isOk = true) →
      r.iterate p.grammar p.lexer p.fullBacktracking levels fuel = some result →
      Search.Completes p.grammar (r.pending ++ ahead) r.search result.toOption
  | 0, _, _, _, _, _, _, h => absurd h (by simp [Run.iterate])
  | fuel + 1, r, ahead, result, hr, hahead, hfull, h => by
    obtain ⟨t, ahead', hf, hahead', heq, hnone⟩ :=
      Run.exists_fetch_of_ahead (hr.pulls.idle (Stream.idle_stream p.lexer text source)) hahead
    have hs := hr.valid
    have hreplay := hr.isReplay hooks
    have hrev := hooks r hr
    rw [← heq]
    rw [← Run.search_fetch hf] at hs hreplay hrev ⊢
    rw [Run.iterate] at h
    split at h
    · exact absurd h (by simp)
    · next s hstep =>
      obtain rfl := Option.some.inj h
      obtain ⟨t', hf', hp, harrives⟩ := Run.arrives_of_step hr.valid.two_le hstep
      obtain rfl : t = t' := Except.ok.inj (hf.symm.trans hf')
      rw [hp, hnone hp]
      exact ⟨.found s, harrives.answers_found, rfl⟩
    · next e hstep =>
      obtain rfl := Option.some.inj h
      obtain ⟨hfails, hback⟩ := Run.fails_of_step hr.valid.two_le hf hstep
      rw [← Run.head?_append hnone] at hfails
      rw [hfull.resolve_right Bool.false_ne_true] at hback
      refine ⟨.nothing none, Search.answers_of_fails hfails, ?_⟩
      exact Search.resumes_of_alternative?_eq_none hs.elements_ne_nil
        (Search.backtrack_false hs.two_le hback)
    · next r' hstep =>
      obtain ⟨t', hf', hgoes⟩ := Run.goes_of_step hr.valid.two_le hstep
      obtain rfl : t = t' := Except.ok.inj (hf.symm.trans hf')
      have hrest :=
        completes_of_iterate hooks (hr.tail ⟨levels, hstep⟩) (hgoes.stream_eq ▸ hahead') hfull h
      exact hgoes.full.completes hnone hs hreplay hrev hrest

/-- What a search with full backtracking answers is what the enumeration comes to. -/
theorem explores_of_searchWithin {tokens : List Token} {fuel : Nat}
    {result : Except ParseError Search} (hfull : p.fullBacktracking = true)
    (hooks : p.HooksRevert text source) (htokens : p.lexer.tokenizeFrom text source = .ok tokens)
    (h : p.searchWithin fuel text source = some result) : ∃ bound answer, (∀ fuel, bound ≤ fuel →
      Search.explore p.grammar fuel tokens (.start p.grammar) = some answer) ∧
      match answer with
      | .found s => result = .ok s
      | .nothing _ => ∃ e, result = .error e := by
  have hstart : p.Reaches text source (p.start text source) := .refl
  have hahead : ((p.start text source).stream.results p.lexer).1 = tokens.map .ok :=
    mapM_id_eq_ok.mp htokens
  obtain ⟨answer, ha, hleads⟩ := completes_of_iterate hooks hstart hahead (.inl hfull) h
  obtain ⟨bound, hexplore⟩ := ha.explores rfl
  refine ⟨bound, answer, hexplore, ?_⟩
  cases answer with
  | found s =>
    have houtcome : result.toOption = some s := hleads
    cases result with
    | error e => exact absurd houtcome (by simp [Except.toOption])
    | ok s' => exact congrArg _ (Option.some.inj houtcome)
  | nothing kept =>
    cases result with
    | error e => exact ⟨e, rfl⟩
    | ok s' =>
      -- The root has no sibling, so what is in vain there is in vain altogether.
      exact absurd hleads (by rintro ⟨⟩)

/-- With full backtracking the search is the enumeration: where it answers, it has found the first
path that the enumeration accepts, or fails because none is accepted.  Where no link leads to the
end of a rule, both come to an answer. -/
theorem searchWithin_eq_explore (p : Parser) (text : List Char) (source : Option String)
    {tokens : List Token} (hfull : p.fullBacktracking = true) (hooks : p.HooksRevert text source)
    (htokens : p.lexer.tokenizeFrom text source = .ok tokens) :
    (∀ fuel result, p.searchWithin fuel text source = some result →
      ∃ bound answer, (∀ fuel, bound ≤ fuel →
        Search.explore p.grammar fuel tokens (.start p.grammar) = some answer) ∧
        match answer with
        | .found s => result = .ok s
        | .nothing _ => ∃ e, result = .error e) ∧
    (p.grammar.EndsApart → ∃ bound answer, ∀ fuel, bound ≤ fuel →
      Search.explore p.grammar fuel tokens (.start p.grammar) = some answer ∧
      match answer with
      | .found s => p.searchWithin fuel text source = some (.ok s)
      | .nothing _ => ∃ e, p.searchWithin fuel text source = some (.error e)) := by
  refine ⟨fun _ _ h => explores_of_searchWithin hfull hooks htokens h, fun hg => ?_⟩
  obtain ⟨enough, result, hresult⟩ := exists_bound hg text source
  obtain ⟨bound, answer, hexplore, hanswer⟩ :=
    explores_of_searchWithin hfull hooks htokens (hresult enough (le_refl enough))
  refine ⟨max enough bound, answer,
    fun fuel hfuel => ⟨hexplore fuel (le_trans (le_max_right _ _) hfuel), ?_⟩⟩
  have hsearch := hresult fuel (le_trans (le_max_left enough bound) hfuel)
  cases answer with
  | found s => rw [hsearch, hanswer]
  | nothing kept =>
    obtain ⟨e, rfl⟩ := hanswer
    exact ⟨e, hsearch⟩

theorem endsApart_twoStatements : Sample.Commands.twoStatements.grammar.EndsApart :=
  Grammar.endsApart_of_atSockets (by
    simp [Sample.Commands.twoStatements, ofGrammar, Sample.Commands.command,
      Sample.Commands.statement, Sample.Commands.commandBody, Body.ofPiece, Piece.token,
      Piece.tokenAs, Piece.rule])

/-- Here the search steps back over a rule and over a slot with a hook before it finds the path. -/
theorem searchWithin_eq_explore_twoStatements :
    Sample.Commands.twoStatements.fullBacktracking = true ∧
      Sample.Commands.twoStatements.HooksRevert Sample.Commands.twoStatementsText none ∧
      ∃ tokens,
        Sample.Commands.twoStatements.lexer.tokenizeFrom Sample.Commands.twoStatementsText none =
          .ok tokens ∧
        ∃ bound s, ∀ fuel, bound ≤ fuel →
          Search.explore Sample.Commands.twoStatements.grammar fuel tokens
            (.start Sample.Commands.twoStatements.grammar) = some (.found s) ∧
          Sample.Commands.twoStatements.searchWithin fuel Sample.Commands.twoStatementsText none =
            some (.ok s) := by
  have hooks := Sample.Commands.hooksRevert_twoStatements
  have hlexes : (Sample.Commands.twoStatements.lexer.tokenizeFrom Sample.Commands.twoStatementsText
      none).isOk = true := by decide +kernel
  have hsucceeds : (Sample.Commands.twoStatements.searchWithin 100 Sample.Commands.twoStatementsText
      none).any (·.isOk) = true := by decide +kernel
  obtain ⟨result, hsearch, hresult⟩ := (Option.any_eq_true _ _).mp hsucceeds
  cases htokens :
    Sample.Commands.twoStatements.lexer.tokenizeFrom Sample.Commands.twoStatementsText none with
  | error e =>
    rw [htokens] at hlexes
    exact absurd hlexes (by simp [Except.isOk, Except.toBool])
  | ok tokens =>
    obtain ⟨bound, answer, h⟩ :=
      (searchWithin_eq_explore _ _ _ rfl hooks htokens).2 endsApart_twoStatements
    cases answer with
    | found s => exact ⟨rfl, hooks, tokens, rfl, bound, s, h⟩
    | nothing kept =>
      obtain ⟨e, he⟩ := (h (max bound 100) (le_max_left bound 100)).2
      have hlarge := Run.iterate_mono (le_max_right bound 100) (le_max_right bound 100) hsearch
      obtain rfl := Option.some.inj (hlarge.symm.trans he)
      exact absurd hresult (by simp [Except.isOk, Except.toBool])

end Parser

end GrammarGraph
