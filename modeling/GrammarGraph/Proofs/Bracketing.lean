import GrammarGraph.Proofs.Derivations
import GrammarGraph.Proofs.Occurring
import GrammarGraph.Proofs.Scopes

/-!
# Paths are well nested

The references in a body are wired in pairs, a rule start with the rule end that it names, and a
body is left to the end of its own instance only.  So the rule starts and rule ends along a path
open and close like brackets (`Path.WellNested`): every end is the one that the innermost open start
names, and the scopes of the path are one for each start and a marker for each end.  This holds at
every moment of a search, also while it steps back, if no body links to the end of a rule
(`Parser.wellNested_of_occurs`).
-/

namespace GrammarGraph

open DyckStep

/-- A scope is opened by a rule start, a marker is left by a rule end. -/
def Scope.bracket : Scope → DyckStep
  | active _ => U
  | exited => D

namespace Path

variable {a b graph : Graph} {g : Grammar} {p : Path} {els els' inside : List PathElement}
  {e : PathElement} {frames : List Frame} {ds : List Derivation}

/-- The rule starts and rule ends along the path are the front of a balanced word, an end belongs to
the innermost start that is open before it, and each has its scope or marker on the stack. -/
structure WellNested (graph : Graph) (p : Path) : Prop where
  nests : Nests graph p.toList
  /-- The end is the node that the start names, and has the same rule and identifier. -/
  closes : ∀ before e behind rule ident, p.toList = before ++ e :: behind →
    graph.kind e.node = .ruleEnd rule ident →
    ∃ outside start inside, Innermost graph before outside start inside rule ∧
      graph.kind start.node = .ruleStart rule ident e.node
  mirrors : p.scopes.map Scope.bracket = brackets graph p.elements

/-! ## The scopes -/

theorem map_bracket_update (f : Env → Env) : ∀ (hidden : Nat) (scopes : List Scope),
    (Scope.update f hidden scopes).map Scope.bracket = scopes.map Scope.bracket
  | _, [] => by rw [Scope.update]
  | hidden, .exited :: rest => by
    rw [Scope.update, List.map_cons, map_bracket_update, List.map_cons]
  | hidden + 1, .active _ :: rest => by
    rw [Scope.update, List.map_cons, map_bracket_update, List.map_cons]
  | 0, .active _ :: rest => by rw [Scope.update]; rfl

/-- On the stack is one scope for each rule start and a marker for each rule end. -/
def Mirrors (graph : Graph) (p : Path) : Prop :=
  p.scopes.map Scope.bracket = brackets graph p.elements

namespace Mirrors

theorem push (h : Mirrors graph p) (g : Grammar) (n : NodeId) (token : Option Token) :
    Mirrors graph (p.push graph g n token) := by
  rw [Mirrors] at h ⊢
  rw [elements_push, brackets_cons, ← h]
  simp only [Path.push, bracket?]
  cases graph.kind n with
  | ruleStart | ruleEnd | junction | gate | switch => rfl
  | slot type ident hook =>
    cases hook with
    | none => rfl
    | some hook =>
      cases token with
      | none => rfl
      | some t => exact map_bracket_update _ _ _

theorem pop (h : Mirrors graph p) : Mirrors graph (p.pop graph).2 := by
  rw [Mirrors] at h ⊢
  obtain ⟨_ | ⟨e, rest⟩, scopes⟩ := p
  · exact h
  · rw [brackets_cons] at h
    simp only [bracket?] at h
    simp only [Path.pop]
    cases hk : graph.kind e.node with
    | ruleStart | ruleEnd =>
      rw [hk] at h
      show scopes.tail.map Scope.bracket = brackets graph rest
      rw [List.map_tail, h]
      rfl
    | junction | gate | switch =>
      rw [hk] at h
      exact h
    | slot type ident hook =>
      rw [hk] at h
      cases hook with
      | none => exact h
      | some hook =>
        cases e.token with
        | none => exact h
        | some t => exact (map_bracket_update _ _ _).trans h

/-- Nodes that stay the same open and close the same instances. -/
theorem of_kind_eq (h : Mirrors a p) (hkind : ∀ e ∈ p.elements, b.kind e.node = a.kind e.node) :
    Mirrors b p := by
  refine Eq.trans h (List.filterMap_congr fun e he => ?_)
  rw [bracket?, bracket?, hkind e he]

end Mirrors

/-! ## The ends -/

theorem balanced_nil : Balanced graph [] := ⟨0, rfl⟩

theorem Balanced.cons (h : Balanced graph els) (he : bracket? graph e = none) :
    Balanced graph (e :: els) := by
  rw [Balanced, brackets_cons, he]
  exact h

/-- An instance with all that lies within it, and what lies behind its end. -/
theorem Balanced.enclose {start stop : PathElement} (hinside : Balanced graph inside)
    (hels : Balanced graph els) (hstart : bracket? graph start = some U)
    (hstop : bracket? graph stop = some D) :
    Balanced graph (start :: inside ++ stop :: els) := by
  obtain ⟨w, hw⟩ := hinside
  obtain ⟨w', hw'⟩ := hels
  refine ⟨w.nest + w', ?_⟩
  rw [brackets_append, brackets_cons, brackets_cons, hw, hw', hstart, hstop]
  show [U] ++ w.toList ++ ([D] ++ w'.toList) = [U] ++ w.toList ++ [D] ++ w'.toList
  rw [List.append_assoc _ [D]]

/-- What lies within an instance opens and closes instances of its own. -/
theorem Derives.balanced (h : Derives graph els ds) : Balanced graph els := by
  induction h with
  | nil => exact balanced_nil
  | taken hk _ ih => exact ih.cons (by rw [bracket?, hk])
  | @passed n els ds hstart hend _ ih =>
    refine ih.cons ?_
    rw [bracket?]
    cases hk : graph.kind n with
    | ruleStart => rw [hk] at hstart; cases hstart
    | ruleEnd => rw [hk] at hend; cases hend
    | slot | junction | gate | switch => rfl
  | nested hstart hstop _ _ ihinner ih =>
    exact ihinner.enclose ih (by rw [bracket?, hstart]) (by rw [bracket?, hstop])

/-- Where the ends of open instances are known, as many more instances were opened than closed. -/
theorem nests_of_openEnds? : ∀ {els : List PathElement}
    {ends : List NodeId}, openEnds? graph els = some ends → Nests graph els.reverse ∧
      (brackets graph els.reverse).count U = (brackets graph els.reverse).count D + ends.length
  | [], ends, h => by
    obtain rfl := Option.some.inj h
    exact ⟨⟨0, List.prefix_rfl⟩, rfl⟩
  | e :: els, ends, h => by
    rw [openEnds?] at h
    obtain ⟨ends', hrest, hstep⟩ := Option.bind_eq_some_iff.mp h
    obtain ⟨hnests, hcount⟩ := nests_of_openEnds? hrest
    rw [Nests, List.reverse_cons, brackets_append, brackets_singleton, bracket?, List.count_append,
      List.count_append]
    cases hk : graph.kind e.node with
    | ruleStart =>
      simp only [hk] at hstep
      obtain rfl := Option.some.inj hstep
      refine ⟨IsFront.concat_U hnests, ?_⟩
      simp only [Option.toList_some, List.count_singleton, List.length_cons, hcount]
      simp
      omega
    | ruleEnd =>
      simp only [hk] at hstep
      cases ends' with
      | nil => cases hstep
      | cons stop ends' =>
        simp only [Option.ite_none_right_eq_some, Option.some.injEq] at hstep
        obtain ⟨-, rfl⟩ := hstep
        rw [List.length_cons] at hcount
        refine ⟨IsFront.concat_D_iff.mpr ⟨hnests, by omega⟩, ?_⟩
        simp only [Option.toList_some, List.count_singleton, hcount]
        simp
        omega
    | slot | junction | gate | switch =>
      simp only [hk] at hstep
      obtain rfl := Option.some.inj hstep
      rw [Option.toList_none, List.append_nil]
      exact ⟨hnests, hcount⟩

namespace Placed

/-- The end that a rule start names has the same rule and identifier. -/
theorem kind_stop {rule : RuleId} {ident : Option String} {stop : NodeId}
    (h : Placed graph g els frames) (he : e ∈ els)
    (hk : graph.kind e.node = .ruleStart rule ident stop) :
    graph.kind stop = .ruleEnd rule ident := by
  obtain ⟨rest, fs, hplaced⟩ := h.exists_of_mem he
  obtain ⟨f, fs, rfl, hholds⟩ := hplaced.holds_tip
  exact (hplaced.nested.region.stops _ rule ident stop hholds.1 hholds.2 hk).2.2

theorem invariant (hg : g.EndsApart) : Search.Invariant g fun graph els =>
    ∃ frames, Placed graph g els frames where
  toKeeps := keeps hg
  start := ⟨_, .root (le_refl _)⟩
  two_le := fun ⟨_, h⟩ => h.base_le.1
  ne_nil := by
    rintro _ _ ⟨_, h⟩ rfl
    cases h

/-- Where instances are open, the innermost one started with all that lies behind it closed. -/
theorem exists_innermost {stop : NodeId} {stops : List NodeId} (h : Placed graph g els frames)
    (hopen : openEnds? graph els = some (stop :: stops)) : ∃ outside start inside rule ident,
      Innermost graph els.reverse outside start inside rule ∧
      graph.kind start.node = .ruleStart rule ident stop ∧
        graph.kind stop = .ruleEnd rule ident := by
  have hends : ∀ e ∈ els, Ends graph e.node := fun e he rule ident stop hk =>
    ⟨ident, h.kind_stop he hk⟩
  have hslots : ∀ e ∈ els, e.token.isSome = true → (graph.kind e.node).isSlot = true := by
    intro e he htoken
    obtain ⟨rest, fs, hplaced⟩ := h.exists_of_mem he
    exact hplaced.slot_of_isSome htoken
  cases open_of_openEnds? hends hslots hopen with
  | @within start stop rule ident ident' inner els ds stops hstart hstop hinner houter =>
    refine ⟨els.reverse, ⟨start, none⟩, inner.reverse, rule, ident, ⟨?_, ⟨ident, stop, hstart⟩,
        hinner.balanced⟩, hstart, h.kind_stop (List.mem_append_right _ List.mem_cons_self) hstart⟩
    rw [List.reverse_append, List.reverse_cons, List.append_assoc, List.singleton_append]

/-- A rule end is the one that the innermost open start names. -/
theorem closes {before behind : List PathElement} {rule : RuleId} {ident : Option String}
    (hg : g.EndsApart) (h : Placed graph g els frames) (hels : els.reverse = before ++ e :: behind)
    (hk : graph.kind e.node = .ruleEnd rule ident) : ∃ outside start inside,
      Innermost graph before outside start inside rule ∧
      graph.kind start.node = .ruleStart rule ident e.node := by
  obtain rfl : els = behind.reverse ++ e :: before.reverse := by
    rw [← List.reverse_reverse els, hels]
    simp
  obtain ⟨fs, htip⟩ := (invariant hg).drop (List.cons_ne_nil e before.reverse) ⟨_, h⟩
  obtain ⟨parent, rest, f, f', fs, rfl, hrest, rfl, hplaced, htargets⟩ :=
    htip.of_isRuleEnd (by rw [hk]; rfl)
  rw [← hrest] at hplaced
  have hopen :
      openEnds? graph before.reverse = some (f'.stop :: (f :: fs).dropLast.map (·.stop)) := by
    rw [hplaced.openEnds?_eq, hrest, openAt_of_stop? (Graph.stop?_of_mem_targets htargets)]
    rfl
  obtain ⟨outside, start, inside, rule', ident', hinner, hstart, hstop⟩ :=
    hplaced.exists_innermost hopen
  obtain ⟨rfl, rfl⟩ := NodeKind.ruleEnd.inj (hstop.symm.trans hk)
  rw [List.reverse_reverse] at hinner
  exact ⟨outside, start, inside, hinner, hstart⟩

theorem wellNested (hg : g.EndsApart) (h : Placed graph g p.elements frames)
    (hmirrors : Mirrors graph p) : WellNested graph p where
  nests := (nests_of_openEnds? h.openEnds?_eq).1
  closes _ _ _ _ _ hels hk := h.closes hg hels hk
  mirrors := hmirrors

end Placed

end Path

/-! ## Every moment -/

namespace Search

variable {g : Grammar} {s s' : Search}

/-- A step keeps the scopes in order if the arena only grows or only shrinks, and
has the nodes of the path. -/
theorem Treads.mirrors (h : s.Treads g s') (hs : s.path.Mirrors s.graph)
    (hcarries : s.graph.Carries s.path.elements) (hcarries' : s'.graph.Carries s'.path.elements)
    (hle : s.graph ≤ s'.graph ∨ s'.graph ≤ s.graph) : s'.path.Mirrors s'.graph := by
  have hkind : ∀ e ∈ s.path.elements, e.node < s'.graph.size →
      s'.graph.kind e.node = s.graph.kind e.node := by
    intro e he hlt
    rcases hle with hle | hle
    · exact Graph.kind_of_le hle (hcarries.lt_size e he)
    · exact (Graph.kind_of_le hle hlt).symm
  cases h with
  | stays graph => exact hs.of_kind_eq fun e he => hkind e he (hcarries'.lt_size e he)
  | pushes graph n token =>
    refine Path.Mirrors.push (hs.of_kind_eq fun e he => ?_) g n token
    exact hkind e he (hcarries'.lt_size e (List.mem_cons_of_mem _ he))
  | pops => exact hs.pop
  | takes n token => exact hs.pop.push g n token

end Search

namespace Moment

variable {p : Parser} {m m' : Moment} {s : Search}

theorem mirrors_then (h : m.Safe) (hm : m.run.search.path.Mirrors m.graph) (hthen : m.Then p m') :
    m'.run.search.path.Mirrors m'.graph := by
  have htreads := m.treads p
  rw [hthen] at htreads
  obtain ⟨hsafe, hle⟩ := h.then hthen
  exact htreads.mirrors hm h.carries hsafe.carries hle

theorem mirrors_stop (h : m.Safe) (hm : m.run.search.path.Mirrors m.graph)
    (hstop : m.next p = .stop (.ok s)) : s.path.Mirrors s.graph := by
  have htreads := m.treads p
  have hkeeps := h.next p
  rw [hstop] at htreads hkeeps
  exact htreads.mirrors hm h.carries hkeeps.1 (.inl hkeeps.2)

end Moment

namespace Parser

variable {p : Parser} {text : List Char} {source : Option String} {m : Moment}
  {s : Search} {fuel : Nat}

theorem Occurs.mirrors (h : p.Occurs text source m) : m.run.search.path.Mirrors m.graph := by
  induction h with
  | refl => exact Path.Mirrors.push (p := {}) rfl p.grammar Graph.root none
  | tail hsteps hthen ih => exact Moment.mirrors_then (Occurs.safe hsteps) ih hthen

theorem Occurs.wellNested (hg : p.grammar.EndsApart) (h : p.Occurs text source m) :
    m.run.search.path.WellNested m.graph := by
  have hinvariant := Path.Placed.invariant hg
  obtain ⟨frames, hplaced⟩ := (h.has hinvariant).holds hinvariant
  exact hplaced.wellNested hg h.mirrors

/-- The path that a search finds is well nested. -/
theorem Occurs.wellNested_of_stop (hg : p.grammar.EndsApart) (h : p.Occurs text source m)
    (hstop : m.next p = .stop (.ok s)) : s.path.WellNested s.graph := by
  have hinvariant := Path.Placed.invariant hg
  have hnext := (h.has hinvariant).next hinvariant
  rw [hstop] at hnext
  obtain ⟨frames, hplaced⟩ := hnext
  exact hplaced.wellNested hg (Moment.mirrors_stop h.safe h.mirrors hstop)

/-- At every moment of a search the path is well nested, and so is the path that is found, as long
as no body links to the end of a rule. -/
theorem wellNested_of_occurs (p : Parser) (hg : p.grammar.EndsApart) (text : List Char)
    (source : Option String) :
    (∀ m, p.Occurs text source m → m.run.search.path.WellNested m.graph) ∧
    ∀ fuel s, p.searchWithin fuel text source = some (.ok s) → s.path.WellNested s.graph := by
  constructor
  · intro m hm
    exact hm.wellNested hg
  · intro fuel s hsearch
    obtain ⟨m, hm, hstop⟩ := stops_of_searchWithin hsearch
    exact hm.wellNested_of_stop hg hstop

end Parser

namespace Sample.Boundary

/-- The second alternative is found by stepping back behind the inner rule,
which has ended by then. -/
theorem wellNested_of_occurs_steppingBack : grammar.EndsApart ∧ ∃ m s,
    Parser.Occurs { Parser.ofGrammar grammar with fullBacktracking := true } "a b e".toList none m ∧
    m.next { Parser.ofGrammar grammar with fullBacktracking := true } = .stop (.ok s) ∧
    m.run.search.path.WellNested m.graph ∧ s.path.WellNested s.graph ∧
    Path.brackets s.graph s.path.toList = [U, U, D, D] := by
  have hok : (Parser.searchWithin { Parser.ofGrammar grammar with fullBacktracking := true } 100
      "a b e".toList none).any (·.toOption.any fun s => Path.brackets s.graph s.path.toList ==
        [U, U, D, D]) = true := by decide +kernel
  obtain ⟨s, hsearch, hs⟩ := Parser.exists_ok_of_any hok
  obtain ⟨m, hm, hstop⟩ := Parser.stops_of_searchWithin hsearch
  obtain ⟨hall, hfound⟩ := Parser.wellNested_of_occurs
    { Parser.ofGrammar grammar with fullBacktracking := true } endsApart_grammar "a b e".toList none
  exact ⟨endsApart_grammar, m, s, hm, hstop, hall m hm, hfound 100 s hsearch, eq_of_beq hs⟩

end Sample.Boundary

end GrammarGraph
