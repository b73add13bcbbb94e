import GrammarGraph.Proofs.Blame
import GrammarGraph.Proofs.Reach

/-!
# The search one step at a time

A search keeps more than its path: the nodes still to be tried at each level of a descent, the size
that the arena had when the level was entered, the elements stepped back over.  In `Search.descend`
and `Search.backtrackFrom` these live in calls that are not finished.  A `Moment` holds them as
data, and `Moment.next` does what is done next.

* `Parser.occurs_of_reaches`: every iteration begins at some moment.
* `Parser.stops_of_searchWithin`: what a search answers, the moments that follow one another stop
  with.
* `Parser.Occurs.exists_stop`: no other moments occur than those that lead to the answer.
-/

namespace GrammarGraph

open Relation (ReflTransGen)

/-- The size of the arena before a node was left, and those of its successors that
are still to be looked at. -/
structure Level where
  mark : Nat
  next : List NodeId

/-- What a search is about to do.  Levels of a descent and elements stepped back over
come with the latest first. -/
inductive Task where
  /-- Begin an iteration. -/
  | fetch
  /-- Descend from the tip. -/
  | descend (levels : List Level)
  /-- Try the next node of the innermost level, which the tip was left for. -/
  | tryNext (level : Level) (levels : List Level)
  /-- Return to the innermost level, if there is one, from a descent that failed. -/
  | giveUp (levels : List Level)
  /-- Look for the next untried alternative. -/
  | backtrack (removed : List PathElement)
  /-- Leave the parent of `e`, which is off the path, once more. -/
  | switch (e : PathElement) (removed : List PathElement)
  /-- Look for a node behind `e` among the successors of its parent. -/
  | choose (e : PathElement) (level : Level) (removed : List PathElement)
  /-- Step back from the tip, unless it is a barrier. -/
  | stepBack (removed : List PathElement)
  /-- Step onto the removed elements again. -/
  | restore (removed : List PathElement)

/-- A search in between two of its steps. -/
structure Moment where
  run : Run
  task : Task

inductive Progress where
  | goOn (m : Moment)
  | stop (answer : Except ParseError Search)

namespace Run

variable (p : Parser) (r : Run)

/-- A descent has arrived with `s`. -/
def arrive (s : Search) : Progress :=
  match r.pending with
  | [] => .stop (.ok s)
  | _ :: rest => .goOn ⟨{ r with search := s, pending := rest }, .fetch⟩

/-- The last pending token is blamed, or the end of the input. -/
def blame : ParseError :=
  match r.pending.getLast? with
  | none => .unexpectedEnd ⟨r.stream.source, r.stream.position⟩
  | some last => .unexpectedToken last.text ⟨r.stream.source, last.start⟩

/-- Leave the tip. -/
def leaveTip (tip : PathElement) (levels : List Level) : Progress :=
  match r.search.graph.successors p.grammar tip.node ⟨r.search.path, r.pending.head?⟩ with
  | (none, graph) =>
    .goOn ⟨{ r with search := { r.search with graph := graph.truncate r.search.graph.size } },
      .giveUp levels⟩
  | (some next, graph) =>
    if next.isEmpty && (r.pending.head?.isNone && (r.search.graph.kind tip.node).isRuleEnd) then
      r.arrive { r.search with graph }
    else .goOn
      ⟨{ r with search := { r.search with graph } }, .tryNext ⟨r.search.graph.size, next⟩ levels⟩

def descendTip (levels : List Level) : Progress :=
  match r.search.path.tip? with
  | none => .goOn ⟨r, .giveUp levels⟩
  | some tip =>
    match r.search.expected? with
    | some type =>
      if r.pending.head?.any (·.hasType type.id) then
        r.arrive (r.search.pop.push p.grammar tip.node r.pending.head?)
      else .goOn ⟨r, .giveUp levels⟩
    | none => r.leaveTip p tip levels

def tryLevel (levels : List Level) : Level → Progress
  | ⟨mark, []⟩ =>
    .goOn
      ⟨{ r with search := { r.search with graph := r.search.graph.truncate mark } }, .giveUp levels⟩
  | ⟨mark, n :: ns⟩ =>
    if r.search.barred r.pending.head? n then .goOn ⟨r, .tryNext ⟨mark, ns⟩ levels⟩
    else .goOn
      ⟨{ r with search := r.search.push p.grammar n none }, .descend (⟨mark, ns⟩ :: levels)⟩

def backtrackTip (removed : List PathElement) : Progress :=
  if r.search.path.length ≤ 1 then .goOn ⟨r, .restore removed⟩
  else
    match r.search.path.tip? with
    | none => .goOn ⟨r, .stepBack removed⟩
    | some e => .goOn ⟨{ r with search := r.search.pop }, .switch e removed⟩

def leaveParent (e : PathElement) (removed : List PathElement) : Progress :=
  match r.search.path.tip? with
  | none => .goOn ⟨{ r with search := r.search.push p.grammar e.node e.token }, .stepBack removed⟩
  | some parent =>
    let (next, graph) := r.search.graph.successors p.grammar parent.node ⟨r.search.path, e.token⟩
    .goOn ⟨{ r with search := { r.search with graph } },
      .choose e ⟨r.search.graph.size, next.getD []⟩ removed⟩

def chooseSibling (e : PathElement) (level : Level) (removed : List PathElement) : Progress :=
  match (level.next.dropWhile (· != e.node)).tail.find? fun n =>
    !r.search.path.revisits r.search.graph n with
  | some n =>
    let graph := if n < level.mark then r.search.graph.truncate level.mark else r.search.graph
    .goOn ⟨{ r with
      search := ({ r.search with graph } : Search).push p.grammar n none
      pending := e.token.toList ++ r.pending }, .fetch⟩
  | none =>
    let graph := r.search.graph.truncate level.mark
    .goOn ⟨{ r with search := ({ r.search with graph } : Search).push p.grammar e.node e.token },
      .stepBack removed⟩

def stepBackTip (removed : List PathElement) : Progress :=
  if (r.search.path.tip?.any fun tip => (r.search.graph.kind tip.node).isRuleEnd) &&
    !p.fullBacktracking then
    .goOn ⟨r, .restore removed⟩
  else
    let (search, pending, removed) := r.search.stepBack r.pending removed
    .goOn ⟨{ r with search, pending }, .backtrack removed⟩

end Run

namespace Moment

def next (p : Parser) : Moment → Progress
  | ⟨r, .fetch⟩ =>
    match r.fetch p.lexer with
    | .error e => .stop (.error e)
    | .ok r => .goOn ⟨r, .descend []⟩
  | ⟨r, .descend levels⟩ => r.descendTip p levels
  | ⟨r, .tryNext level levels⟩ => r.tryLevel p levels level
  | ⟨r, .giveUp []⟩ => .goOn ⟨r, .backtrack []⟩
  | ⟨r, .giveUp (level :: levels)⟩ =>
    .goOn ⟨{ r with search := r.search.pop }, .tryNext level levels⟩
  | ⟨r, .backtrack removed⟩ => r.backtrackTip removed
  | ⟨r, .switch e removed⟩ => r.leaveParent p e removed
  | ⟨r, .choose e level removed⟩ => r.chooseSibling p e level removed
  | ⟨r, .stepBack removed⟩ => r.stepBackTip p removed
  | ⟨r, .restore []⟩ => .stop (.error r.blame)
  | ⟨r, .restore (e :: removed)⟩ =>
    .goOn ⟨{ r with
      search := r.search.push p.grammar e.node e.token
      pending := if e.token.isSome then r.pending.tail else r.pending }, .restore removed⟩

/-- One moment comes right after another. -/
def Then (p : Parser) (m m' : Moment) : Prop := m.next p = .goOn m'

end Moment

namespace Run

open Moment (Then)

variable {p : Parser} {r t : Run} {levels : List Level} {removed : List PathElement} {m m' : Moment}
  {back : Search → Moment} {result : Bool × Search} {s' : Search} {pending' : List Token}

/-! ## Descents -/

/-- From a moment on the descent comes to its result: it arrives, or fails and is back. -/
def Comes (p : Parser) (r : Run) (back : Search → Moment) (m : Moment) : Bool × Search → Prop
  | (true, s) => ∃ m', ReflTransGen (Then p) m m' ∧ m'.next p = r.arrive s
  | (false, s) => ReflTransGen (Then p) m (back s)

theorem Comes.of_steps (h : ReflTransGen (Then p) m m') (hcomes : Comes p r back m' result) :
    Comes p r back m result := by
  obtain ⟨_ | _, s⟩ := result
  · exact h.trans hcomes
  · obtain ⟨m'', hsteps, hnext⟩ := hcomes
    exact ⟨m'', h.trans hsteps, hnext⟩

theorem Comes.head (h : Then p m m') (hcomes : Comes p r back m' result) :
    Comes p r back m result :=
  hcomes.of_steps (.single h)

/-- Nodes are tried in turn, if each descent comes to its result. -/
theorem comes_tryEach {visit : Search → Option (Bool × Search)}
    (hvisit : ∀ s levels result, visit s = some result →
      Comes p r (fun s => ⟨{ r with search := s }, .giveUp levels⟩)
        ⟨{ r with search := s }, .descend levels⟩ result)
    (mark : Nat) (levels : List Level) :
    ∀ (ns : List NodeId) {s : Search},
      Search.tryEach p.grammar (Search.barred r.pending.head?) visit ns s = some result →
      Comes p r (fun s => ⟨{ r with search := s }, .tryNext ⟨mark, []⟩ levels⟩)
        ⟨{ r with search := s }, .tryNext ⟨mark, ns⟩ levels⟩ result
  | [], s, h => by
    obtain rfl := Option.some.inj h
    exact .refl
  | n :: ns, s, h => by
    rw [Search.tryEach] at h
    split at h
    · next hb => exact .head (if_pos hb) (comes_tryEach hvisit mark levels ns h)
    · next hb =>
      have hthen : Then p ⟨{ r with search := s }, .tryNext ⟨mark, n :: ns⟩ levels⟩
          ⟨{ r with search := s.push p.grammar n none }, .descend (⟨mark, ns⟩ :: levels)⟩ :=
            if_neg hb
      split at h
      · cases h
      · next s' hs' =>
        obtain rfl := Option.some.inj h
        exact .head hthen (hvisit _ _ _ hs')
      · next s' hs' =>
        have hback : ReflTransGen (Then p) _ _ := hvisit _ (⟨mark, ns⟩ :: levels) _ hs'
        have hreturn : Then p ⟨{ r with search := s' }, .giveUp (⟨mark, ns⟩ :: levels)⟩
            ⟨{ r with search := s'.pop }, .tryNext ⟨mark, ns⟩ levels⟩ := rfl
        exact .of_steps (.head hthen (hback.tail hreturn)) (comes_tryEach hvisit mark levels ns h)

theorem comes_descendFor (r : Run) : ∀ (fuel : Nat) (s : Search) (levels : List Level)
    (result : Bool × Search), Search.descendFor p.grammar r.pending.head? fuel s = some result →
    Comes p r (fun s => ⟨{ r with search := s }, .giveUp levels⟩)
      ⟨{ r with search := s }, .descend levels⟩ result
  | 0, s, levels, result, h => by
    rw [Search.descendFor_zero] at h
    exact absurd h nofun
  | fuel + 1, s, levels, result, h => by
    have hdescend : Moment.next p ⟨{ r with search := s }, .descend levels⟩ =
        descendTip p { r with search := s } levels := rfl
    cases ht : s.path.tip? with
    | none =>
      rw [Search.descendFor_of_isEmpty fuel ht] at h
      obtain rfl := Option.some.inj h
      simp only [descendTip, ht] at hdescend
      exact .single hdescend
    | some tip =>
      cases he : s.expected? with
      | some type =>
        rw [Search.descendFor_of_expected fuel ht he] at h
        simp only [descendTip, ht, he] at hdescend
        split at h
        · next hany =>
          obtain rfl := Option.some.inj h
          rw [if_pos hany] at hdescend
          exact ⟨_, .refl, hdescend⟩
        · next hany =>
          obtain rfl := Option.some.inj h
          rw [if_neg hany] at hdescend
          exact .single hdescend
      | none =>
        rw [Search.descendFor_of_leave fuel ht he, Search.leave] at h
        simp only [descendTip, ht, he, leaveTip] at hdescend
        split at h
        · next graph hsucc =>
          obtain rfl := Option.some.inj h
          rw [hsucc] at hdescend
          exact .single hdescend
        · next next graph hsucc =>
          rw [hsucc] at hdescend
          split at h
          · next hdead =>
            obtain rfl := Option.some.inj h
            exact ⟨_, .refl, hdescend.trans (if_pos hdead)⟩
          · next hdead =>
            have htry {result} (h : Search.tryEach p.grammar (Search.barred r.pending.head?)
                _ next _ = some result) :=
              comes_tryEach (s := { s with graph }) (comes_descendFor r fuel)
                s.graph.size levels next h
            refine .head (hdescend.trans (if_neg hdead)) ?_
            split at h
            · exact absurd h nofun
            · next s' hs' =>
              obtain rfl := Option.some.inj h
              exact htry hs'
            · next s' hs' =>
              obtain rfl := Option.some.inj h
              have hback : ReflTransGen (Then p) _ _ := htry hs'
              exact hback.tail rfl

/-! ## Backtracking -/

theorem steps_restore : ∀ {r : Run} {removed : List PathElement},
    Search.restore p.grammar removed r.search r.pending = (s', pending') →
    ReflTransGen (Then p) ⟨r,
      .restore removed⟩ ⟨{ r with search := s', pending := pending' }, .restore []⟩
  | r, [], h => by
    obtain ⟨rfl, rfl⟩ := h
    exact .refl
  | r, e :: removed, h => .head rfl (steps_restore (r := { r with
      search := r.search.push p.grammar e.node e.token
      pending := if e.token.isSome then r.pending.tail else r.pending }) h)

theorem exists_parent_of_length {path : Path} (h : ¬path.length ≤ 1) :
    ∃ e parent rest, path.elements = e :: parent :: rest := by
  match hels : path.elements with
  | [] | [_] => exact absurd (by rw [Path.length, hels]; simp) h
  | e :: parent :: rest => exact ⟨e, parent, rest, rfl⟩

/-- The tip is replaced by its sibling, or put back. -/
theorem steps_switchSibling (removed : List PathElement) (hlength : ¬r.search.path.length ≤ 1)
    {found : Bool} (h : r.search.switchSibling p.grammar r.pending = (found, s', pending')) :
    ReflTransGen (Then p) ⟨r, .backtrack removed⟩ ⟨{ r with search := s', pending := pending' },
        if found then .fetch else .stepBack removed⟩ := by
  obtain ⟨e, parent, rest, hels⟩ := exists_parent_of_length hlength
  have ht : r.search.path.tip? = some e := Search.tip?_eq hels
  have hparent : r.search.pop.path.tip? = some parent := Search.tip?_pop hels
  have hbacktrack : Moment.next p ⟨r, .backtrack removed⟩ = backtrackTip r removed := rfl
  have hswitch : Moment.next p ⟨{ r with search := r.search.pop }, .switch e removed⟩ =
      leaveParent p { r with search := r.search.pop } e removed := rfl
  rw [backtrackTip, if_neg hlength, ht] at hbacktrack
  rw [leaveParent] at hswitch
  rw [Search.switchSibling, ht] at h
  simp only [hparent] at h hswitch
  refine .head hbacktrack (.head hswitch (.single ?_))
  show chooseSibling p _ e _ removed = _
  rw [chooseSibling]
  split at h
  · next n hn =>
    obtain ⟨rfl, rfl, rfl⟩ := h
    simp only [hn]
    rfl
  · next hn =>
    obtain ⟨rfl, rfl, rfl⟩ := h
    simp only [hn]
    rfl

/-- The search steps back to an alternative, or all is put back. -/
theorem steps_backtrackFrom : ∀ {fuel : Nat} {r : Run} {removed : List PathElement} {found : Bool},
    2 ≤ r.search.graph.size → r.search.path.length ≤ fuel →
    r.search.backtrackFrom p.grammar p.fullBacktracking fuel r.pending removed =
      (found, s', pending') →
    ReflTransGen (Then p) ⟨r, .backtrack removed⟩
      ⟨{ r with search := s', pending := pending' }, if found then .fetch else .restore []⟩
  | 0, r, removed, found, _, hfuel, h => by
    obtain ⟨rfl, hrestore⟩ := Prod.mk.inj h
    exact .head (if_pos (le_trans hfuel (Nat.zero_le 1))) (steps_restore hrestore)
  | fuel + 1, r, removed, found, hs, hfuel, h => by
    rw [Search.backtrackFrom] at h
    split at h
    · next hlength =>
      obtain ⟨rfl, hrestore⟩ := Prod.mk.inj h
      exact .head (if_pos hlength) (steps_restore hrestore)
    · next hlength =>
      split at h
      · next s pending hswitch =>
        obtain ⟨rfl, rfl, rfl⟩ := h
        exact steps_switchSibling removed hlength hswitch
      · next s pending hswitch =>
        have hsteps := steps_switchSibling removed hlength hswitch
        have hback : Moment.next p ⟨{ r with search := s, pending := pending }, .stepBack removed⟩ =
            stepBackTip p { r with search := s, pending := pending } removed := rfl
        rw [stepBackTip] at hback
        obtain ⟨e, parent, rest, hels⟩ := exists_parent_of_length hlength
        obtain rfl := Search.eq_of_switchSibling hs hels hswitch
        split at h
        · next hbarrier =>
          obtain ⟨rfl, hrestore⟩ := Prod.mk.inj h
          refine (hsteps.tail (hback.trans (if_pos hbarrier))).trans ?_
          exact steps_restore (r := { r with search := _, pending := pending }) hrestore
        · next hbarrier =>
          have hshorter : (parent :: rest).length ≤ fuel := by
            rw [Path.length, hels, List.length_cons] at hfuel
            exact Nat.le_of_succ_le_succ hfuel
          refine (hsteps.tail (hback.trans (if_neg hbarrier))).trans
            (@steps_backtrackFrom fuel _ _ _ hs ?_ h)
          simp only [Path.tip?, Search.elements_push, Search.elements_pop, hels, List.head?_cons,
            List.tail_cons, Path.length]
          exact hshorter

/-! ## Iterations -/

/-- From a moment on the iteration comes to its outcome. -/
def Ends (p : Parser) (m : Moment) : Outcome → Prop
  | .goOn r => ReflTransGen (Then p) m ⟨r, .fetch⟩
  | .done s => ∃ m', ReflTransGen (Then p) m m' ∧ m'.next p = .stop (.ok s)
  | .failed e => ∃ m', ReflTransGen (Then p) m m' ∧ m'.next p = .stop (.error e)

theorem Ends.of_steps {o : Outcome} (h : ReflTransGen (Then p) m m') (hends : Ends p m' o) :
    Ends p m o := by
  cases o with
  | goOn r => exact h.trans hends
  | done | failed =>
    obtain ⟨m'', hsteps, hstop⟩ := hends
    exact ⟨m'', h.trans hsteps, hstop⟩

theorem ends_retreat {e : ParseError} {o : Outcome} (hs : 2 ≤ r.search.graph.size)
    (h : retreat p.grammar p.fullBacktracking r e = o) (hblame : ∀ e, o = .failed e → e = r.blame) :
    Ends p ⟨r, .backtrack []⟩ o := by
  rw [retreat] at h
  rcases hback : r.search.backtrack p.grammar p.fullBacktracking
    r.pending with ⟨_ | _, s, pending⟩ <;> rw [hback] at h
  · obtain rfl := h
    obtain ⟨rfl, -⟩ := Search.backtrack_restores hs hback
    rw [hblame e rfl]
    exact ⟨_, steps_backtrackFrom hs (le_refl _) hback, rfl⟩
  · obtain rfl := h
    exact steps_backtrackFrom hs (le_refl _) hback

/-- Whatever an iteration does, the moments from its head on do. -/
theorem ends_step {bound : Nat} {o : Outcome} (hs : 2 ≤ r.search.graph.size)
    (h : r.step p.grammar p.lexer p.fullBacktracking bound = some o) : Ends p ⟨r, .fetch⟩ o := by
  have hfetch : Moment.next p ⟨r, .fetch⟩ = match r.fetch p.lexer with
      | .error e => .stop (.error e)
      | .ok r => .goOn ⟨r, .descend []⟩ := rfl
  cases hf : r.fetch p.lexer with
  | error e =>
    rw [step, hf] at h
    obtain rfl := Option.some.inj h
    rw [hf] at hfetch
    exact ⟨_, .refl, hfetch⟩
  | ok t =>
    rw [hf] at hfetch
    have hblame : ∀ e, o = .failed e → e = t.blame := by
      rintro e rfl
      exact error_of_step hf h
    obtain ⟨e, hstep⟩ := step_eq p.grammar p.fullBacktracking hf
    rw [hstep] at h
    rw [← search_fetch hf] at hs
    refine .of_steps (.single hfetch) ?_
    rcases hdescend : t.search.descendFor p.grammar t.pending.head? bound with _ | ⟨_ | _, s⟩ <;>
      rw [hdescend] at h
    · cases h
    · have hback : ReflTransGen (Then p) ⟨t, .descend []⟩ ⟨{ t with search := s }, .giveUp []⟩ :=
        comes_descendFor t bound t.search [] _ hdescend
      obtain ⟨rfl, -⟩ := Search.failsInPlace_descendFor p.grammar _ bound _ s hs hdescend
      exact .of_steps (hback.tail rfl) (ends_retreat hs (Option.some.inj h) hblame)
    · obtain ⟨m, hsteps, hnext⟩ := comes_descendFor (p := p) t bound t.search [] _ hdescend
      rw [arrive] at hnext
      cases hp : t.pending with
      | nil =>
        rw [hp] at h hnext
        obtain rfl := Option.some.inj h
        exact ⟨m, hsteps, hnext⟩
      | cons token rest =>
        rw [hp] at h hnext
        obtain rfl := Option.some.inj h
        exact hsteps.tail hnext

end Run

namespace Parser

open Moment (Then)

variable {p : Parser} {text : List Char} {source : Option String} {r : Run} {fuel : Nat}
  {answer : Except ParseError Search}

/-- The moment comes in the course of parsing the text. -/
def Occurs (p : Parser) (text : List Char) (source : Option String) : Moment → Prop :=
  ReflTransGen (Then p) ⟨p.start text source, .fetch⟩

/-- Each iteration begins at some moment. -/
theorem occurs_of_reaches (h : p.Reaches text source r) : p.Occurs text source ⟨r, .fetch⟩ := by
  induction h with
  | refl => exact .refl
  | tail hr hnext ih =>
    obtain ⟨levels, hstep⟩ := hnext
    have hends : Run.Ends p _ _ := Run.ends_step (Reaches.valid hr).two_le hstep
    exact ih.trans hends

/-- The moments stop with what the search answers. -/
theorem stops_of_searchWithin (h : p.searchWithin fuel text source = some answer) :
    ∃ m, p.Occurs text source m ∧ m.next p = .stop answer := by
  cases answer with
  | ok s =>
    obtain ⟨r, hr, hstep⟩ := exists_done h
    obtain ⟨m, hsteps, hstop⟩ := Run.ends_step hr.valid.two_le hstep
    exact ⟨m, (occurs_of_reaches hr).trans hsteps, hstop⟩
  | error e =>
    obtain ⟨r, hr, hstep⟩ := exists_failed_of_iterate .refl h
    obtain ⟨m, hsteps, hstop⟩ := Run.ends_step hr.valid.two_le hstep
    exact ⟨m, (occurs_of_reaches hr).trans hsteps, hstop⟩

theorem rightUnique_then (p : Parser) : Relator.RightUnique (Then p) :=
  fun _ _ _ h h' => Progress.goOn.inj (h.symm.trans h')

/-- Every moment comes before the one at which the search stops, if it does. -/
theorem Occurs.exists_stop {m : Moment} (h : p.Occurs text source m)
    (hsearch : p.searchWithin fuel text source = some answer) :
    ∃ m', ReflTransGen (Then p) m m' ∧ m'.next p = .stop answer := by
  obtain ⟨m', hm', hstop⟩ := stops_of_searchWithin hsearch
  refine ⟨m', ?_, hstop⟩
  rcases ReflTransGen.total_of_right_unique p.rightUnique_then h hm' with hsteps | hsteps
  · exact hsteps
  · rcases hsteps.cases_head with rfl | ⟨next, hthen, -⟩
    · exact .refl
    · exact absurd (hstop.symm.trans hthen) nofun

end Parser

end GrammarGraph
