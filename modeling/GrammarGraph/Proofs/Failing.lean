import GrammarGraph.Proofs.Machine

/-!
# Searches that fail

A descent steps onto nodes, and back from them, before it is known to fail, and wires what they lead
to; a search for an alternative steps back over elements, tries their siblings and steps onto them
again.  Where either fails all this has been undone (`Parser.unchanged_of_fails`).  The descent has
not run a hook on its way, for it meets no element that has a token (`Run.quietly_of_fails`).  The
search for an alternative runs the hooks of the tokens that it steps back over, both ways.
-/

namespace GrammarGraph

open Relation (ReflTransGen)

/-- The hook that runs when a path steps onto the element, or back from it. -/
def Graph.hook? (graph : Graph) (e : PathElement) : Option Hook :=
  match graph.kind e.node, e.token with
  | .slot _ _ hook, some _ => hook
  | _, _ => none

theorem Graph.hook?_of_none (graph : Graph) (n : NodeId) : graph.hook? ⟨n, none⟩ = none := by
  unfold hook?
  split
  · next ht => exact absurd ht nofun
  · rfl

namespace Search

variable {g : Grammar} {full : Bool} {s s' v : Search} {token : Option Token} {e : PathElement}
  {rest removed : List PathElement} {pending pending' : List Token}

/-- What can become of a search in one step without a hook being run. -/
inductive Quiet (g : Grammar) (s : Search) : Search → Prop
  /-- The path stays where it is. -/
  | stays (graph : Graph) : Quiet g s { s with graph }
  | onto (e : PathElement) : s.graph.hook? e = none → Quiet g s (s.push g e.node e.token)
  | back {e : PathElement} : s.path.tip? = some e → s.graph.hook? e = none → Quiet g s s.pop

/-! ## What a search wires -/

theorem Descends.two_le (h : Descends g token s v) (hs : 2 ≤ s.graph.size) : 2 ≤ v.graph.size := by
  induction h with
  | here | popped => exact hs
  | wired _ _ hsucc => exact le_trans hs (successors_le hsucc).1
  | step _ _ hsucc _ _ _ ih => exact ih (le_trans hs (successors_le hsucc).1)
  | failed _ _ hsucc => exact le_trans hs (successors_le hsucc).1
  | released _ _ hsucc =>
    rw [Graph.truncate_of_le (successors_le hsucc) hs]
    exact hs

theorem Switches.two_le (h : Switches g s v) (hs : 2 ≤ s.graph.size)
    (hels : s.path.elements = e :: rest) : 2 ≤ v.graph.size := by
  cases h with
  | popped => exact hs
  | wired _ _ hsucc => exact le_trans hs (successors_le hsucc).1
  | released _ _ hsucc =>
    rw [Graph.truncate_of_le (successors_le hsucc) hs]
    exact hs
  | switched pending =>
    rw [switchSibling_eq hs hels]
    split <;> exact hs

theorem Restores.graph_eq (h : Restores g removed s v) : v.graph = s.graph := by
  induction h with
  | here => rfl
  | step _ ih => exact ih

theorem Backtracks.two_le (h : Backtracks g full s removed v) (hs : 2 ≤ s.graph.size) :
    2 ≤ v.graph.size := by
  induction h with
  | switching hlength hswitches =>
    obtain ⟨e, rest, hels⟩ := List.exists_cons_of_length_pos (lt_trans Nat.zero_lt_one hlength)
    exact hswitches.two_le hs hels
  | back hlength hswitch _ _ _ ih =>
    obtain ⟨e, rest, hels⟩ := List.exists_cons_of_length_pos (lt_trans Nat.zero_lt_one hlength)
    obtain rfl := eq_of_switchSibling hs hels hswitch
    exact ih hs
  | exhausted _ hrestores => rwa [hrestores.graph_eq]
  | barred hlength hswitch _ _ _ hrestores =>
    obtain ⟨e, rest, hels⟩ := List.exists_cons_of_length_pos (lt_trans Nat.zero_lt_one hlength)
    obtain rfl := eq_of_switchSibling hs hels hswitch
    rwa [hrestores.graph_eq]

/-- Where backtracking finds no alternative, what it wired is released. -/
theorem graph_of_backtrackFrom {fuel : Nat} (hs : 2 ≤ s.graph.size)
    (h : backtrackFrom g full fuel s pending removed = (false, s', pending')) :
    s'.graph = s.graph := by
  have put {s : Search} {pending : List Token} {removed : List PathElement}
      (h : (false, restore g removed s pending) = (false, s', pending')) : s'.graph = s.graph := by
    rw [← (restores_restore removed s pending).graph_eq, (Prod.mk.inj h).2]
  induction fuel generalizing s pending removed with
  | zero => exact put h
  | succ fuel ih =>
    rw [backtrackFrom] at h
    split at h
    · exact put h
    · next hlength =>
      obtain ⟨e, parent, rest, hels⟩ := Run.exists_parent_of_length hlength
      split at h
      · exact absurd (Prod.mk.inj h).1.symm Bool.false_ne_true
      · next hswitch =>
        obtain rfl := eq_of_switchSibling hs hels hswitch
        split at h
        · have hgraph := put h
          exact hgraph
        · exact ih (s := (s.pop.push g e.node e.token).pop) hs h

/-- Where backtracking finds no alternative in a faithful state, it comes back to that state. -/
theorem Faithful.eq_of_backtrack (h : s.Faithful g)
    (hback : s.backtrack g full pending = (false, s', pending')) : s' = s := by
  have hs := h.wellFormed.two_le
  have hbacktracks : s.Backtracks g full [] (s.backtrack g full pending).2.1 :=
    backtracks_backtrackFrom hs (le_refl _)
  rw [hback] at hbacktracks
  have hreplay : s'.IsReplay g :=
    (hbacktracks.faithful h (fun _ he => absurd he List.not_mem_nil) h.reversible).isReplay
  have hgraph : s'.graph = s.graph := graph_of_backtrackFrom hs hback
  rw [IsReplay, hgraph, (backtrack_restores hs hback).2, ← h.isReplay] at hreplay
  obtain ⟨graph, path⟩ := s'
  obtain rfl : graph = s.graph := hgraph
  obtain rfl : path = s.path := hreplay
  rfl

end Search

/-- One moment comes right after another, and no hook is run in between. -/
def Moment.Quietly (p : Parser) (m m' : Moment) : Prop :=
  Then p m m' ∧ m.run.search.Quiet p.grammar m'.run.search

namespace Run

open Moment (Then Quietly)

variable {p : Parser} {r : Run} {s : Search} {tip : PathElement}

theorem quietly_stays {m m' : Moment} (h : Then p m m')
    (hpath : m'.run.search.path = m.run.search.path) : Quietly p m m' := by
  refine ⟨h, ?_⟩
  rw [show m'.run.search = ⟨m'.run.search.graph, m.run.search.path⟩ from hpath ▸ rfl]
  exact .stays _

/-- Nodes are tried in turn without a hook being run, if each descent fails without one. -/
theorem quietly_tryNext {mark : Nat} {levels : List Level} : ∀ {ns : List NodeId},
    (∀ n ∈ ns, s.barred r.pending.head? n = false → ∀ levels,
      ReflTransGen (Quietly p) ⟨{ r with search := s.push p.grammar n none }, .descend levels⟩
        ⟨{ r with search := s.push p.grammar n none }, .giveUp levels⟩) →
    ReflTransGen (Quietly p) ⟨{ r with search := s }, .tryNext ⟨mark, ns⟩ levels⟩
      ⟨{ r with search := s }, .tryNext ⟨mark, []⟩ levels⟩
  | [], _ => .refl
  | n :: ns, h => by
    have hrest : ReflTransGen (Quietly p) ⟨{ r with search := s }, .tryNext ⟨mark, ns⟩ levels⟩
        ⟨{ r with search := s }, .tryNext ⟨mark, []⟩ levels⟩ :=
      quietly_tryNext fun m hm => h m (List.mem_cons_of_mem n hm)
    cases hb : s.barred r.pending.head? n with
    | true => exact .head (quietly_stays (if_pos hb) rfl) hrest
    | false =>
      have honto : Quietly p ⟨{ r with search := s }, .tryNext ⟨mark, n :: ns⟩ levels⟩
          ⟨{ r with search := s.push p.grammar n none }, .descend (⟨mark, ns⟩ :: levels)⟩ :=
        ⟨if_neg (Bool.eq_false_iff.mp hb), .onto ⟨n, none⟩ (s.graph.hook?_of_none n)⟩
      have hback :
          Quietly p ⟨{ r with search := s.push p.grammar n none }, .giveUp (⟨mark, ns⟩ :: levels)⟩
          ⟨{ r with search := (s.push p.grammar n none).pop }, .tryNext ⟨mark, ns⟩ levels⟩ :=
        ⟨rfl, .back rfl (s.graph.hook?_of_none n)⟩
      rw [Search.pop_push_none] at hback
      exact .head honto (((h n List.mem_cons_self hb _).tail hback).trans hrest)

/-- A descent that fails runs no hook on its way. -/
theorem quietly_of_fails (h : s.Fails p.grammar r.pending.head?) (hs : 2 ≤ s.graph.size) :
    ∀ levels : List Level, ReflTransGen (Quietly p) ⟨{ r with search := s }, .descend levels⟩
      ⟨{ r with search := s }, .giveUp levels⟩ := by
  have hnext (s : Search) (levels : List Level) :
      Moment.next p ⟨{ r with search := s }, .descend levels⟩ =
        descendTip p { r with search := s } levels := rfl
  induction h with
  | @astray s ht =>
    intro levels
    refine .single (quietly_stays ((hnext s levels).trans ?_) rfl)
    simp only [descendTip, ht]
  | @refused s tip type ht he hany =>
    intro levels
    refine .single (quietly_stays ((hnext s levels).trans ?_) rfl)
    simp only [descendTip, ht, he]
    exact if_neg (Bool.eq_false_iff.mp hany)
  | @closed s tip ht he hsucc =>
    intro levels
    refine .single (quietly_stays ((hnext s levels).trans ?_) rfl)
    rcases hgraph :
      s.graph.successors p.grammar tip.node ⟨s.path, r.pending.head?⟩ with ⟨next, graph⟩
    obtain rfl : next = none := by rw [← hsucc, hgraph]
    simp only [descendTip, ht, he, leaveTip, hgraph,
      Graph.truncate_of_le (Search.successors_le hgraph) hs]
  | @exhausted s tip next graph ht he hsucc hdead _ ih =>
    intro levels
    have hle := Search.successors_le hsucc
    have hleave : Quietly p ⟨{ r with search := s }, .descend levels⟩
        ⟨{ r with search := { s with graph } }, .tryNext ⟨s.graph.size, next⟩ levels⟩ := by
      refine quietly_stays ((hnext s levels).trans ?_) rfl
      simp only [descendTip, ht, he, leaveTip, hsucc]
      refine if_neg ?_
      rw [Bool.and_eq_true, List.isEmpty_iff]
      rintro ⟨hnil, hend⟩
      rw [hdead hnil] at hend
      exact absurd hend Bool.false_ne_true
    have hrelease :
        Quietly p ⟨{ r with search := { s with graph } }, .tryNext ⟨s.graph.size, []⟩ levels⟩
        ⟨{ r with search := { s with graph := graph.truncate s.graph.size } }, .giveUp levels⟩ :=
          quietly_stays rfl rfl
    rw [Graph.truncate_of_le hle hs] at hrelease
    exact .head hleave
      ((quietly_tryNext fun n hn hb => ih n hn hb (le_trans hs hle.1)).tail hrelease)

end Run

namespace Parser

open Moment (Quietly)

variable {p : Parser} {text : List Char} {source : Option String} {s : Search}

theorem Passes.two_le (h : p.Passes text source s) : 2 ≤ s.graph.size := by
  have hfetch {r t : Run} (hr : p.Reaches text source r) (hf : r.fetch p.lexer = .ok t) :
      2 ≤ t.search.graph.size := by
    rw [Run.search_fetch hf]
    exact hr.valid.two_le
  cases h with
  | head hr => exact hr.valid.two_le
  | descending hr hf hdescends => exact hdescends.two_le (hfetch hr hf)
  | backtracking hr hf _ hbacktracks => exact hbacktracks.two_le (hfetch hr hf)

/-- A descent that fails in a state of the search, with a token or without one, leaves path and
arena as they were, and has not run a hook.  Where no alternative is found in such a state, the
elements of the path, the pending tokens and the arena are as they were, and so are the scopes if
the hooks that the run applies can be taken back. -/
theorem unchanged_of_fails (p : Parser) (text : List Char) (source : Option String) (r : Run)
    (h : p.Passes text source r.search) :
    (∀ token rest levels s', r.pending = token :: rest →
      r.search.descend p.grammar token levels = some (false, s') →
      s' = r.search ∧ ReflTransGen (Quietly p) ⟨r, .descend []⟩ ⟨r, .giveUp []⟩) ∧
    (∀ levels s', r.pending = [] → r.search.descendToEnd p.grammar levels = some (false, s') →
      s' = r.search ∧ ReflTransGen (Quietly p) ⟨r, .descend []⟩ ⟨r, .giveUp []⟩) ∧
    ∀ s' pending, r.search.backtrack p.grammar p.fullBacktracking r.pending = (false, s', pending) →
      s'.path.elements = r.search.path.elements ∧ pending = r.pending ∧ s'.graph = r.search.graph ∧
        (p.HooksUndone text source → s'.path.scopes = r.search.path.scopes) := by
  have hs : 2 ≤ r.search.graph.size := h.two_le
  have descent :
      ∀ levels s', r.search.descendFor p.grammar r.pending.head? levels = some (false, s') →
      s' = r.search ∧ ReflTransGen (Quietly p) ⟨r, .descend []⟩ ⟨r, .giveUp []⟩ := by
    intro levels s' hdescend
    obtain ⟨rfl, hfails⟩ := Search.failsInPlace_descendFor p.grammar _ levels _ s' hs hdescend
    exact ⟨rfl, Run.quietly_of_fails hfails hs []⟩
  refine ⟨?_, ?_, ?_⟩
  · intro token rest levels s' hpending hdescend
    exact descent levels s' (by rwa [hpending])
  · intro levels s' hpending hdescend
    exact descent levels s' (by rwa [hpending])
  · intro s' pending hback
    obtain ⟨hpending, helements⟩ := Search.backtrack_restores hs hback
    refine ⟨helements, hpending, Search.graph_of_backtrackFrom hs hback, ?_⟩
    intro hooks
    rw [(h.faithful fun _ hr => hooks.faithful hr).eq_of_backtrack hback]

end Parser

namespace Sample.Commands

/-- Neither of the two statements goes on with another semicolon. -/
def stuckText : List Char := "strict let x ; ;".toList

/-- The run with the given number of iterations behind it and its next token. -/
def stuckAt (n : Nat) : Option (Run × Token) := do
  let r ← twoStatements.goOnFor 100 n (twoStatements.start stuckText none)
  let t ← (r.fetch twoStatements.lexer).toOption
  return (t, ← t.pending.head?)

/-- The search has come to the last token by way of the second statement.  No slot takes the token,
and no alternative is left; the hooked word has been stepped back over and onto again. -/
theorem unchanged_of_fails_stuck : ∃ t token s s' pending, stuckAt 9 = some (t, token) ∧
    t.search.path.tokens.length = 4 ∧ t.search.path.var? "strict" = some (.bool true) ∧
    t.search.descend twoStatements.grammar token 100 = some (false, s) ∧ s = t.search ∧
    t.search.backtrack twoStatements.grammar true t.pending = (false, s', pending) ∧
    s'.path.elements = t.search.path.elements ∧ pending = t.pending ∧
    s'.path.scopes = t.search.path.scopes := by
  have hstuck : ((stuckAt 9).any fun (t, token) =>
      t.search.path.tokens.length == 4 && t.search.path.var? "strict" == some (.bool true) &&
      (t.search.descend twoStatements.grammar token 100).any (!·.1) &&
      !(t.search.backtrack twoStatements.grammar true t.pending).1) = true := by decide +kernel
  have hhooks : twoStatements.HooksRevert stuckText none :=
    Parser.hooksRevert_of_revertsFrom 100 100 (by decide +kernel)
  obtain ⟨⟨t, token⟩, ht, hchecks⟩ := (Option.any_eq_true _ _).mp hstuck
  simp only [Bool.and_eq_true, beq_iff_eq, Bool.not_eq_true', Option.any_eq_true] at hchecks
  obtain ⟨⟨⟨hlength, hvar⟩, ⟨_, s⟩, hdescend, rfl⟩, hback⟩ := hchecks
  rcases hresult : t.search.backtrack twoStatements.grammar true t.pending with ⟨found, s', pending⟩
  obtain rfl : found = false := by rw [hresult] at hback; exact hback
  simp only [stuckAt, Option.bind_eq_bind, Option.bind_eq_some_iff] at ht
  obtain ⟨r, hr, t', hfetch, token', hhead, heq⟩ := ht
  obtain ⟨rfl, rfl⟩ := Prod.mk.inj (Option.some.inj heq)
  have hf : r.fetch twoStatements.lexer = .ok t' := by
    cases hfetched : r.fetch twoStatements.lexer <;> rw [hfetched] at hfetch
    · cases hfetch
    · rw [Option.some.inj hfetch]
  have hpasses : twoStatements.Passes stuckText none t'.search := by
    rw [Run.search_fetch hf]
    exact .head (.of_goOnFor .refl hr)
  obtain ⟨rest, hpending⟩ := List.head?_eq_some_iff.mp hhead
  obtain ⟨hdescent, -, hbacktracking⟩ :=
    Parser.unchanged_of_fails twoStatements stuckText none t' hpasses
  obtain ⟨helements, hpending', -, hscopes⟩ := hbacktracking s' pending hresult
  refine ⟨t', token', s, s', pending, ?_, hlength, hvar, hdescend,
    (hdescent token' rest 100 s hpending hdescend).1, hresult, helements, hpending',
    hscopes (Parser.hooksUndone_iff.mpr hhooks)⟩
  simp only [stuckAt, Option.bind_eq_bind, hr, Option.bind_some, hfetch, hhead]
  rfl

end Sample.Commands

end GrammarGraph
