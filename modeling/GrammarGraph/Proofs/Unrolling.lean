import GrammarGraph.Proofs.Instances
import GrammarGraph.Proofs.Loops
import GrammarGraph.Proofs.Tracing

/-!
# Nothing but loops is parsed

What a walk through an instance of a body passes is told node by node by the template of the body
(`Graph.Holds.walk_induction`).  So an instance of a loop derives what a loop describes, and one of
the root rule any number of loops: where a search of the grammar of loops succeeds it has read
loops, and the tree tells what they describe (`Sample.Loops.exists_phrases_of_searchWithin`).
-/

namespace GrammarGraph

@[simp] theorem NodeKind.labels_moved (k : Nat) (kind : NodeKind) :
    (kind.moved k).labels = kind.labels := by
  cases kind <;> rfl

namespace Graph

variable {graph t a : Graph} {base i n N : Nat} {stop : NodeId} {w : List Label} {body : Body}

/-- From a node of an instance a walk goes on within the instance, or from the
exit to the node behind it. -/
theorem Holds.mem_onward (h : graph.Holds base t stop) (hi : i < t.size)
    (hn : n ∈ graph.onward (base + i)) : (∃ j ∈ t.onward i, n = base + j) ∨ i = 1 ∧ n = stop := by
  have hk := h.kind_eq hi
  unfold onward at hn ⊢
  cases hkind : t.kind i with
  | ruleStart rule ident stop' =>
    rw [hkind] at hk
    simp only [hk, NodeKind.moved] at hn
    exact .inl ⟨stop', List.mem_singleton_self stop', List.mem_singleton.mp hn⟩
  | ruleEnd | slot | gate | switch | junction =>
    rw [hkind] at hk
    simp only [hk, NodeKind.moved] at hn
    exact h.mem_targets hi hn

/-- To show a property of what walks through an instance pass from each of its nodes, look at the
exit and at the links in the template. -/
theorem Holds.walk_induction {P : Nat → List Label → Prop} (h : graph.Holds base t stop)
    (hstop : stop < base) (hlt : ∀ i < t.size, ∀ j ∈ t.onward i, j < t.size)
    (hexit : P 1 (t.kind 1).labels)
    (hstep : ∀ i < t.size, ∀ j ∈ t.onward i, ∀ w, P j w → P i ((t.kind i).labels ++ w))
    (hi : i < t.size) (hwalk : graph.Walk stop (base + i) N w) : P i w := by
  induction N generalizing i w with
  | zero =>
    obtain ⟨_, _, _, _, _, hN, _⟩ := hwalk.cases_hop (Nat.ne_of_lt (Nat.lt_add_right i hstop))
    cases hN
  | succ N ih =>
    obtain ⟨m, M, v, hm, hrest, hN, rfl⟩ :=
      hwalk.cases_hop (Nat.ne_of_lt (Nat.lt_add_right i hstop))
    obtain rfl := Nat.succ.inj hN
    rw [h.kind_eq hi, NodeKind.labels_moved]
    rcases h.mem_onward hi hm with ⟨j, hj, rfl⟩ | ⟨rfl, rfl⟩
    · exact hstep i hi j hj v (ih (hlt i hi j hj) hrest)
    · obtain rfl := hrest.eq_of_done
      rwa [List.append_nil]

/-- Where every reference in its template leads on, a body leaves no end of a rule behind
that is linked to nothing. -/
theorem Loose.of_addBody (hbody : ∀ i, ¬body.template.Loose i)
    (h : (a.addBody body stop).2.Loose n) : a.Loose n := by
  rw [addBody_eq] at h
  obtain ⟨hend, hwired⟩ := h.of_connect.1
  by_cases hn : n < a.size
  · have hnode : (a.above body.template).nodes[n]? = a.nodes[n]? := Array.getElem?_append_left hn
    rw [kind, hnode] at hend
    rw [wired, hnode] at hwired
    exact ⟨hend, hwired⟩
  · obtain ⟨i, rfl⟩ := Nat.exists_eq_add_of_le (not_lt.mp hn)
    rw [kind, nodes_above] at hend
    rw [wired, nodes_above] at hwired
    refine absurd ?_ (hbody i)
    rw [Loose, kind, wired]
    cases hi : body.template.nodes[i]? with
    | none =>
      rw [hi] at hend
      exact absurd hend Bool.false_ne_true
    | some node =>
      rw [hi] at hend hwired
      exact ⟨by rwa [← NodeKind.isRuleEnd_moved a.size], List.map_eq_nil_iff.mp hwired⟩

theorem regular_of_forall_lt (h : ∀ i < t.size, (t.kind i).Regular) : t.Regular := by
  intro i
  by_cases hi : i < t.size
  · exact h i hi
  · rw [kind_of_size_le (not_lt.mp hi)]
    trivial

end Graph

namespace Sample.Loops

open GrammarGraph.Path

variable {graph : Graph} {d : Derivation} {ds : List Derivation} {p : Parser} {text : List Char}
  {source : Option String}

/-! ## The grammar -/

/-- A rule has one of the two bodies. -/
theorem eq_of_expand? {rule : RuleId} {expand : Context → Body}
    (h : grammar.expand? rule = some expand) : rule = 0 ∧ expand = (fun _ => loopBody) ∨ rule = 1 ∧
      expand = fun _ => loopsBody := by
  match rule with
  | 0 => exact .inl ⟨rfl, (Option.some.inj h).symm⟩
  | 1 => exact .inr ⟨rfl, (Option.some.inj h).symm⟩
  | _ + 2 => exact absurd h nofun

theorem regular_loop : loopBody.template.Regular := by
  refine Graph.regular_of_forall_lt fun i hi => ?_
  have hi : i < 11 := hi
  interval_cases i <;> trivial

theorem regular_loops : loopsBody.template.Regular := by
  refine Graph.regular_of_forall_lt fun i hi => ?_
  have hi : i < 4 := hi
  interval_cases i <;> trivial

/-- The bodies are the same in all contexts and have no hooks. -/
theorem uniform_grammar : grammar.Uniform where
  regular h ctx := by
    rcases eq_of_expand? h with ⟨-, rfl⟩ | ⟨-, rfl⟩
    · exact regular_loop
    · exact regular_loops
  expand_eq h _ _ _ _ := by
    rcases eq_of_expand? h with ⟨-, rfl⟩ | ⟨-, rfl⟩ <;> rfl

/-- The end of a loop leads to the node in front of the next one. -/
theorem links_grammar : grammar.Links := by
  have hloop : ∀ i, ¬loopBody.template.Loose i := by
    rintro i ⟨hend, -⟩
    have hi : i < 11 := Graph.lt_size_of_isRuleEnd hend
    interval_cases i <;> exact absurd hend Bool.false_ne_true
  have hloops : ∀ i, ¬loopsBody.template.Loose i := by
    rintro i ⟨hend, hwired⟩
    have hi : i < 4 := Graph.lt_size_of_isRuleEnd hend
    interval_cases i
    all_goals first | exact absurd hend Bool.false_ne_true |
      exact absurd hwired (List.cons_ne_nil _ _)
  intro rule expand h ctx base stop n hloose
  rcases eq_of_expand? h with ⟨-, rfl⟩ | ⟨-, rfl⟩
  · exact hloose.of_addBody hloop
  · exact hloose.of_addBody hloops

/-! ## What instances derive -/

/-- What is passed between the braces and the end of a loop. -/
def braces : List Label := [.token left none, .token right none]

/-- What is passed from the place of the list on. -/
def fromList : List Label := .token identifier (some "list") :: braces

/-- What is passed from the place of the element on. -/
def fromElement : List Label := .token identifier (some "element") :: .token within none :: fromList

/-- What can be passed from a node of the body of a loop to its end. -/
def ways : Nat → List (List Label)
  | 0 => [.token forAll none :: fromList, .token forEach none :: fromElement]
  | 1 => [[]]
  | 2 | 9 => [braces]
  | 3 => [.token forAll none :: fromList]
  | 4 | 8 => [fromList]
  | 5 => [.token forEach none :: fromElement]
  | 6 => [fromElement]
  | 7 => [.token within none :: fromList]
  | 10 => [[.token right none]]
  | _ => []

/-- From node to node the table has what is passed. -/
theorem ways_closed : ∀ i < loopBody.template.size, ∀ j ∈ loopBody.template.onward i,
    j < loopBody.template.size ∧ ∀ w ∈ ways j, (loopBody.template.kind i).labels ++ w ∈ ways i := by
  rw [template_loop]
  intro i hi
  have hi : i < 11 := hi
  interval_cases i <;>
    simp [Graph.onward, Graph.kind, Graph.targets, NodeKind.targets, Graph.wired, NodeKind.labels,
      Graph.size, ways, fromList, fromElement, braces]

/-- An instance of the root rule passes nothing but loops. -/
theorem rounds_closed : ∀ i < loopsBody.template.size, ∀ j ∈ loopsBody.template.onward i,
    j < loopsBody.template.size ∧ ∀ l ∈ (loopsBody.template.kind i).labels, l = .rule 0 none := by
  rw [template_loops]
  intro i hi
  have hi : i < 4 := hi
  interval_cases i <;>
    simp [Graph.onward, Graph.kind, Graph.targets, NodeKind.targets, Graph.wired, NodeKind.labels,
      Graph.size]

theorem labels_of_walk_loop {base N : Nat} {stop : NodeId} {w : List Label}
    (h : graph.Holds base loopBody.template stop) (hstop : stop < base)
    (hwalk : graph.Walk stop base N w) : w ∈ ways 0 :=
  h.walk_induction (P := fun i w => w ∈ ways i) hstop (fun i hi j hj => (ways_closed i hi j hj).1)
    (List.mem_singleton_self _) (fun i hi j hj => (ways_closed i hi j hj).2)
    (i := 0) (by decide) hwalk

theorem labels_of_walk_loops {base N : Nat} {stop : NodeId} {w : List Label}
    (h : graph.Holds base loopsBody.template stop) (hstop : stop < base)
    (hwalk : graph.Walk stop base N w) : ∀ l ∈ w, l = .rule 0 none := by
  refine h.walk_induction (P := fun _ w => ∀ l ∈ w, l = .rule 0 none) hstop (fun i hi j hj =>
    (rounds_closed i hi j hj).1) nofun (fun i hi j hj w hw => ?_) (i := 0) (by decide) hwalk
  exact List.forall_mem_append.mpr ⟨(rounds_closed i hi j hj).2, hw⟩

/-- The derivation is found in the arena, and the tokens have the types of their slots. -/
abbrev Found (graph : Graph) (d : Derivation) : Prop :=
  graph.Allows grammar (fun type _ token => token.hasType type.id = true) d

theorem Found.hasType {type : TokenType} {ident : Option String} {token : Token}
    (h : Found graph (.leaf type ident token)) : token.hasType type.id = true := by
  cases h with
  | leaf htype => exact htype

/-- What stands for the labels from one end of the body to the other is a phrase. -/
theorem exists_phrase {w : List Label} (hw : w ∈ ways 0) (h : Meta.Derives (Found graph) w ds) :
    ∃ p : Phrase, p.IsTyped ∧ p.tokens = Derivation.tokensOfAll ds ∧
      (Derivation.node 0 none ds).rewritten grammar = p.loop.tree := by
  simp only [ways, List.mem_cons, List.not_mem_nil, or_false] at hw
  rcases hw with rfl | rfl
  · obtain ⟨word, _, rfl, hword, h⟩ := h.token
    obtain ⟨list, _, rfl, hlist, h⟩ := h.token
    obtain ⟨opening, _, rfl, hopening, h⟩ := h.token
    obtain ⟨closing, _, rfl, hclosing, h⟩ := h.token
    obtain rfl := h.nil
    exact ⟨⟨.overAll word list, opening, closing⟩,
      ⟨⟨hword.hasType, hlist.hasType⟩, hopening.hasType, hclosing.hasType⟩, rfl, rfl⟩
  · obtain ⟨word, _, rfl, hword, h⟩ := h.token
    obtain ⟨element, _, rfl, helement, h⟩ := h.token
    obtain ⟨within, _, rfl, hwithin, h⟩ := h.token
    obtain ⟨list, _, rfl, hlist, h⟩ := h.token
    obtain ⟨opening, _, rfl, hopening, h⟩ := h.token
    obtain ⟨closing, _, rfl, hclosing, h⟩ := h.token
    obtain rfl := h.nil
    exact ⟨⟨.overEach word element within list, opening, closing⟩,
      ⟨⟨hword.hasType, helement.hasType, hwithin.hasType, hlist.hasType⟩, hopening.hasType,
        hclosing.hasType⟩, rfl, rfl⟩

/-- An instance of a loop derives a phrase. -/
theorem Found.exists_phrase (h : Found graph d) (hlabel : d.label = .rule 0 none) :
    ∃ p : Phrase, p.IsTyped ∧ p.tokens = d.tokens ∧ d.rewritten grammar = p.loop.tree := by
  cases h with
  | leaf => cases hlabel
  | node hexpand hle hlt hwalk hds =>
    obtain ⟨rfl, rfl⟩ := Label.rule.inj hlabel
    obtain ⟨-, rfl⟩ := (eq_of_expand? hexpand).resolve_right fun h => Nat.zero_ne_one h.1
    exact Loops.exists_phrase
      (labels_of_walk_loop ((Graph.holds_addBody hlt _).of_le hle) hlt hwalk) ⟨rfl, hds⟩

theorem exists_phrases (hlabels : ∀ l ∈ ds.map (·.label), l = .rule 0 none)
    (hds : ∀ d ∈ ds, Found graph d) : ∃ phrases : List Phrase, (∀ p ∈ phrases, p.IsTyped) ∧
      phrases.flatMap (·.tokens) = Derivation.tokensOfAll ds ∧
      ds.map (Derivation.rewritten grammar) = phrases.map (·.loop.tree) := by
  induction ds with
  | nil => exact ⟨[], fun _ h => absurd h List.not_mem_nil, rfl, rfl⟩
  | cons d ds ih =>
    rw [List.map_cons, List.forall_mem_cons] at hlabels
    rw [List.forall_mem_cons] at hds
    obtain ⟨p, hp, htokens, htree⟩ := hds.1.exists_phrase hlabels.1
    obtain ⟨phrases, hphrases, htokens', htrees⟩ := ih hlabels.2 hds.2
    refine ⟨p :: phrases, List.forall_mem_cons.mpr ⟨hp, hphrases⟩, ?_, ?_⟩
    · rw [List.flatMap_cons, htokens, htokens', Derivation.tokensOfAll]
    · rw [List.map_cons, List.map_cons, htree, htrees]

/-- An instance of the root rule derives phrases, and its tree is that of the
loops that they describe. -/
theorem exists_phrases_of_found (h : Found graph (.node 1 none ds)) :
    ∃ phrases : List Phrase, (∀ p ∈ phrases, p.IsTyped) ∧
      phrases.flatMap (·.tokens) = Derivation.tokensOfAll ds ∧
      (Derivation.node 1 none ds).tree grammar .ast = treeOfAll (phrases.map (·.loop)) := by
  cases h with
  | node hexpand hle hlt hwalk hds =>
    obtain ⟨-, rfl⟩ := (eq_of_expand? hexpand).resolve_left fun h => Nat.one_ne_zero h.1
    have hlabels := labels_of_walk_loops ((Graph.holds_addBody hlt _).of_le hle) hlt hwalk
    obtain ⟨phrases, hphrases, htokens, htrees⟩ := exists_phrases hlabels hds
    refine ⟨phrases, hphrases, htokens, ?_⟩
    rw [Derivation.tree_node, transformed_loops]
    show (⟨"loops", "", "", ds.map (Derivation.rewritten grammar), none⟩ : Tree) = _
    rw [htrees, treeOfAll, List.map_map]
    rfl

/-- A search that succeeds has read phrases, and the tree is that of the loops that they
describe. -/
theorem exists_phrases_of_searchWithin {fuel : Nat} {s : Search} (hg : p.grammar = grammar)
    (htree : p.tree = .ast) (h : p.searchWithin fuel text source = some (.ok s)) :
    ∃ phrases : List Phrase, (∀ p ∈ phrases, p.IsTyped) ∧
      phrases.flatMap (·.tokens) = s.path.tokens ∧
      p.treeOf s = treeOfAll (phrases.map (·.loop)) := by
  obtain ⟨g, lx, full, tree⟩ := p
  obtain rfl : g = grammar := hg
  obtain rfl : tree = .ast := htree
  have hooks : Parser.HooksRevert ⟨grammar, lx, full, .ast⟩ text source :=
    Parser.hooksRevert_of_uniform uniform_grammar
  obtain ⟨-, -, hlegal, htip⟩ := Parser.legal_of_searchWithin hooks h
  have hend := Parser.rootEnd_of_searchWithin links_grammar h
  obtain ⟨ds, hfound, htokens, htree⟩ := Parser.allows_of_searchWithin endsApart_grammar hooks h
    (congrArg (Option.map (·.node)) hend) fun e he =>
      (Search.matched_of_legal hlegal htip e he).takes
  obtain ⟨phrases, hphrases, htokens', htree'⟩ := exists_phrases_of_found hfound
  exact ⟨phrases, hphrases, htokens'.trans htokens, htree.trans htree'⟩

end Sample.Loops

end GrammarGraph
