import GrammarGraph.Proofs.Termination
import GrammarGraph.Sample

/-!
# A completed rule is a barrier

The end of a rule is linked to behind all other links of the exit (`Graph.EndsLast`), so a rule end
on the path never gives way to an alternative, and without full backtracking it is not stepped back
over either.  What leads up to the end of a rule at the head of the loop stays on the path for good.
This is for bodies that keep the ends of rules apart: a link to the plug of a reference may well
have an alternative.
-/

namespace GrammarGraph

namespace Graph

variable {a b base g : Graph} {grammar : Grammar} {parent id n : NodeId} {ctx : Context}
  {next : List NodeId}

/-- Of the links of a plain node only the last one leads to the end of a rule. -/
def EndsLast (g : Graph) : Prop :=
  ∀ id, (g.kind id).isPlain = true → ∀ n ∈ (g.wired id).dropLast, (g.kind n).isRuleEnd = false

theorem endsLast_ofGrammar (grammar : Grammar) : (ofGrammar grammar).EndsLast := by
  intro id hk n hn
  have hmem : n ∈ (ofGrammar grammar).targets id := by
    rw [targets, NodeKind.targets_of_isPlain hk]
    exact List.dropLast_subset _ hn
  rw [targets_ofGrammar] at hmem
  exact absurd hmem List.not_mem_nil

/-- While a body is wired no link leads to a rule end, and the link that leads out of it comes
last. -/
theorem EndsLast.addBody (h : base.EndsLast) (hbase : base.WellFormed) {body : Body}
    (hbody : body.EndsApart) {stop : NodeId} (hstop : stop < base.size) :
    (base.addBody body stop).2.EndsLast := by
  have hadd := addBody_hasBody base body stop
  intro id hk n hn
  by_cases hid : id < base.size
  · rw [kind_of_le hadd.le hid] at hk
    rw [wired_of_le hadd.le hid] at hn
    have hmem : n ∈ base.targets id := by
      rw [targets, NodeKind.targets_of_isPlain hk]
      exact List.dropLast_subset _ hn
    rw [kind_of_le hadd.le (hbase.targets_lt id n hmem)]
    exact h id hk n hn
  · have hmem : n ∈ (base.addBody body stop).2.targets id := by
      rw [targets, NodeKind.targets_of_isPlain hk]
      exact List.dropLast_subset _ hn
    have hlt := lt_size_of_mem_targets hmem
    rcases hadd.region.targets id (not_lt.mp hid) hlt n hmem with rfl | ⟨hlo, hhi⟩
    · -- The link that leads out is behind all others.
      obtain ⟨i, rfl⟩ := Nat.exists_eq_add_of_le (not_lt.mp hid)
      rw [size_addBody] at hlt
      have hlo := (holds_addBody hstop body).le_of_mem_dropLast (Nat.lt_of_add_lt_add_left hlt) hn
      exact absurd hstop (not_lt.mpr hlo)
    · exact endsApart_addBody hbody hstop id (not_lt.mp hid) hlt n hmem hlo hhi

theorem Leaves.endsLast (hg : grammar.EndsApart) (h : Leaves a grammar id ctx next b)
    (hwf : a.WellFormed) (ha : a.EndsLast) : b.EndsLast := by
  cases h with
  | enter hk hexpand => exact ha.addBody hwf (hg _ _ hexpand ctx) (hwf.stop_lt _ _ _ _ hk)
  | gate | switch | wired => exact ha

theorem tail_dropWhile_of_not_mem_dropLast : ∀ {l : List NodeId}, n ∉ l.dropLast →
    (l.dropWhile (· != n)).tail = []
  | [], _ => rfl
  | [x], _ => tail_dropWhile_of_length_le _ (le_refl 1)
  | x :: y :: l, h => by
    rw [List.dropLast_cons_cons, List.mem_cons, not_or] at h
    rw [List.dropWhile_cons, if_pos (by simpa using Ne.symm h.1)]
    exact tail_dropWhile_of_not_mem_dropLast h.2

/-- Nothing comes behind the end of a rule. -/
theorem EndsLast.later_eq_nil (h : g.EndsLast) (hn : (g.kind n).isRuleEnd = true)
    (parent : NodeId) : g.later parent n = [] := by
  unfold later
  split
  · next hk =>
    apply tail_dropWhile_of_not_mem_dropLast
    intro hmem
    rw [h parent hk n hmem] at hn
    exact absurd hn (by simp)
  · rfl

theorem EndsLast.alternative?_eq_none {e : PathElement} (h : g.EndsLast)
    (he : (g.kind e.node).isRuleEnd = true) (rest : List PathElement) :
    g.alternative? (e :: rest) = none := by
  cases rest with
  | nil => rfl
  | cons parent rest => rw [alternative?, h.later_eq_nil he, List.find?_nil]

end Graph

namespace Search

variable {g : Grammar} {s s' : Search} {token : Option Token} {graph : Graph} {e : PathElement}
  {els els' rest : List PathElement} {pending pending' : List Token}

/-- A descent puts elements behind those that end in a rule end. -/
theorem Arrives.keeps (h : Arrives g token s s') (hs : s.Valid g)
    (he : (s.graph.kind e.node).isRuleEnd = true) (hsuffix : e :: rest <:+ s.path.elements) :
    e :: rest <:+ s'.path.elements := by
  induction h with
  | @taken s tip type ht hexpected =>
    obtain ⟨els, hels⟩ := exists_rest ht
    obtain ⟨-, ident, hook, hk⟩ := isSlot_of_expected? ht hexpected
    rw [elements_push, elements_pop, hels, List.tail_cons]
    rw [hels] at hsuffix
    rcases List.suffix_cons_iff.mp hsuffix with heq | hsuffix
    · -- The tip that takes the token is a slot.
      obtain ⟨rfl, -⟩ := List.cons.inj heq
      rw [hk] at he
      exact absurd he (by simp [NodeKind.isRuleEnd])
    · exact hsuffix.trans (List.suffix_cons _ _)
  | complete => exact hsuffix
  | @step s s' tip graph before behind n ht hexpected hsucc hbefore hn _ ih =>
    have hle := successors_le hsucc
    refine ih (hs.push hsucc (List.mem_append_right _ List.mem_cons_self)) ?_ ?_
    · rw [graph_push, Graph.kind_of_le hle (Graph.lt_size_of_isRuleEnd he)]
      exact he
    · rw [elements_push]
      exact hsuffix.trans (List.suffix_cons _ _)

/-- Stepping back to an alternative without full backtracking stops short of every rule end. -/
theorem Retreats.keeps (h : Retreats graph false els pending els' pending') (hends : graph.EndsLast)
    (he : (graph.kind e.node).isRuleEnd = true) (hsuffix : e :: rest <:+ els) :
    e :: rest <:+ els' := by
  induction h with
  | switch halt =>
    rcases List.suffix_cons_iff.mp hsuffix with heq | hsuffix
    · obtain ⟨rfl, -⟩ := List.cons.inj heq
      rw [hends.alternative?_eq_none he] at halt
      exact absurd halt (by simp)
    · exact hsuffix.trans (List.suffix_cons _ _)
  | back _ hbarrier _ ih =>
    rcases List.suffix_cons_iff.mp hsuffix with heq | hsuffix
    · obtain ⟨rfl, -⟩ := List.cons.inj heq
      rw [he] at hbarrier
      exact absurd hbarrier (by simp)
    · exact ih hsuffix

end Search

theorem Run.Goes.keeps {g : Grammar} {r r' : Run} {e : PathElement} {rest : List PathElement}
    (h : Goes g false r r') (hs : r.search.Valid g) (hends : r.search.graph.EndsLast)
    (he : (r.search.graph.kind e.node).isRuleEnd = true)
    (hsuffix : e :: rest <:+ r.search.path.elements) : e :: rest <:+ r'.search.path.elements := by
  cases h with
  | taken _ harrives => exact harrives.keeps hs he hsuffix
  | retreated _ hback =>
    obtain ⟨-, hretreats, -⟩ := Search.backtrack_true hs.two_le hback
    exact hretreats.keeps hends he hsuffix

namespace Parser

variable {p : Parser} {text : List Char} {source : Option String} {r r' : Run} {e : PathElement}
  {rest : List PathElement}

theorem Reaches.endsLast (hg : p.grammar.EndsApart) (h : p.Reaches text source r) :
    r.search.graph.EndsLast :=
  h.arena (Graph.endsLast_ofGrammar p.grammar) fun _ _ _ _ _ hleaves => hleaves.endsLast hg

/-- The arena keeps its nodes from one iteration to the next. -/
theorem Reaches.graph_le (h : p.Reaches text source r) (hnext : Relation.ReflTransGen p.Next r r') :
    r.search.graph ≤ r'.search.graph := by
  induction hnext with
  | refl => exact le_refl r.search.graph
  | tail hrest hnext ih =>
    have hr := h.trans hrest
    obtain ⟨levels, hstep⟩ := hnext
    obtain ⟨t, hf, hgoes⟩ := Run.goes_of_step (Reaches.valid hr).two_le hstep
    have hs := Reaches.valid hr
    rw [← Run.search_fetch hf] at hs ih
    exact le_trans ih (hgoes.graph_le hs)

/-- Without full backtracking every later iteration keeps what leads up to the end of a rule. -/
theorem Reaches.keeps (hg : p.grammar.EndsApart) (hbarrier : p.fullBacktracking = false)
    (h : p.Reaches text source r) (he : (r.search.graph.kind e.node).isRuleEnd = true)
    (hsuffix : e :: rest <:+ r.search.path.elements) (hnext : Relation.ReflTransGen p.Next r r') :
    e :: rest <:+ r'.search.path.elements := by
  induction hnext with
  | refl => exact hsuffix
  | @tail t r' hrest hnext ih =>
    have ht : p.Reaches text source t := h.trans hrest
    have hs := ht.valid
    have hends := ht.endsLast hg
    have hle := h.graph_le hrest
    obtain ⟨levels, hstep⟩ := hnext
    obtain ⟨t', hf, hgoes⟩ := Run.goes_of_step hs.two_le hstep
    rw [hbarrier] at hgoes
    rw [← Run.search_fetch hf] at hs hends hle ih
    refine hgoes.keeps hs hends ?_ ih
    rw [Graph.kind_of_le hle (Graph.lt_size_of_isRuleEnd he)]
    exact he

/-- Without full backtracking, once the end of a rule is on the path at the head of the loop,
neither it nor anything in front of it is stepped back over: all that led up to it is on the path at
the head of every later iteration, and on the path that is found. -/
theorem completed_rule_kept {upTo behind : List PathElement} (hg : p.grammar.EndsApart)
    (hbarrier : p.fullBacktracking = false) (hr : p.Reaches text source r)
    (hpath : r.search.path.toList = upTo ++ e :: behind)
    (he : (r.search.graph.kind e.node).isRuleEnd = true) :
    (∀ r', Relation.ReflTransGen p.Next r r' →
      r.search.graph ≤ r'.search.graph ∧ upTo ++ [e] <+: r'.search.path.toList) ∧
    (∀ fuel s, p.searchWithin fuel text source = some (.ok s) →
      r.search.graph ≤ s.graph ∧ upTo ++ [e] <+: s.path.toList) := by
  have hsuffix : e :: upTo.reverse <:+ r.search.path.elements := by
    refine ⟨behind.reverse, ?_⟩
    rw [← List.reverse_inj, ← Path.toList, hpath]
    simp
  have htoList : ∀ {els : List PathElement}, e :: upTo.reverse <:+ els →
      upTo ++ [e] <+: els.reverse := by
    intro els h
    rw [← List.reverse_suffix]
    simpa using h
  constructor
  · intro r' hnext
    exact ⟨hr.graph_le hnext, htoList (hr.keeps hg hbarrier he hsuffix hnext)⟩
  · intro fuel s hsearch
    obtain ⟨r', hr', hdone⟩ := exists_done hsearch
    have hnext := reflTransGen_of_stop hr hr' hdone nofun
    have hs := hr'.valid
    have hle := hr.graph_le hnext
    have hkept := hr.keeps hg hbarrier he hsuffix hnext
    obtain ⟨t, hf, -, harrives⟩ := Run.arrives_of_step hs.two_le hdone
    rw [← Run.search_fetch hf] at hs hle hkept
    refine ⟨le_trans hle (harrives.graph_le hs), htoList (harrives.keeps hs ?_ hkept)⟩
    rw [Graph.kind_of_le hle (Graph.lt_size_of_isRuleEnd he)]
    exact he

end Parser

namespace Sample.Boundary

/-- The alternatives part behind the rule that they share. -/
def shared : Rule :=
  { boundary with
    expand := some fun _ =>
      .ofPiece (.sequence [.rule 0,
          .fork [.sequence [.token b, .token d], .sequence [.token b, .token e]]]) }

def sharedParser : Parser := .ofGrammar { grammar with rules := [inner, shared] }

theorem endsApart_shared : sharedParser.grammar.EndsApart :=
  Grammar.endsApart_of_atSockets (by
    simp [sharedParser, Parser.ofGrammar, inner, shared, Body.ofPiece, Piece.token, Piece.rule])

/-- The search takes the first "b" in vain and steps back over it, but keeps the rule in front of
it. -/
theorem completed_rule_kept_shared : sharedParser.grammar.EndsApart ∧ ∃ r upTo e behind s,
    sharedParser.Reaches "a b e".toList none r ∧
    r.search.path.toList = upTo ++ e :: behind ∧ (r.search.graph.kind e.node).isRuleEnd = true ∧
    sharedParser.searchWithin 100 "a b e".toList none = some (.ok s) ∧
    ¬r.search.path.toList.map (·.node) <+: s.path.toList.map (·.node) ∧
    upTo ++ [e] <+: s.path.toList := by
  have hhead : ((sharedParser.goOnFor 100 2 (sharedParser.start "a b e".toList none)).any fun r =>
      r.search.path.toList.any (fun e => (r.search.graph.kind e.node).isRuleEnd) &&
        (sharedParser.searchWithin 100 "a b e".toList none).any (·.toOption.any fun s =>
          !decide (r.search.path.toList.map (·.node) <+: s.path.toList.map (·.node)))) = true := by
            decide +kernel
  obtain ⟨r, hgoes, hboth⟩ := (Option.any_eq_true _ _).mp hhead
  obtain ⟨hend, hanswer⟩ := Bool.and_eq_true_iff.mp hboth
  obtain ⟨e, hmem, he⟩ := List.any_eq_true.mp hend
  obtain ⟨upTo, behind, hpath⟩ := List.append_of_mem hmem
  obtain ⟨s, hsearch, hswitched⟩ := Parser.exists_ok_of_any hanswer
  have hr : sharedParser.Reaches "a b e".toList none r := .of_goOnFor .refl hgoes
  refine ⟨endsApart_shared, r, upTo, e, behind, s, hr, hpath, he, hsearch, by simpa using hswitched,
    ?_⟩
  exact ((Parser.completed_rule_kept endsApart_shared rfl hr hpath he).2 100 s hsearch).2

end Sample.Boundary

end GrammarGraph
