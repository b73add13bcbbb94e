import GrammarGraph.Proofs.Classifying
import GrammarGraph.Proofs.Layouts
import GrammarGraph.Proofs.Rivals
import GrammarGraph.Proofs.Spelling

/-!
# What is taken on the way

Whatever the text, the bodies in the arena of the search are laid out as their tables tell
(`Meta.layout_of_expand?`), and the slots on the path that is found take tokens that fit them.  A
word that fits a token name as well as a rule name is taken for a token name, since the slot for
these comes first in every fork (`Meta.Takes`, `Meta.takes_of_searchWithin`).
-/

namespace GrammarGraph.Meta

/-! ## The bodies in an arena -/

theorem lt_of_expand? {rule : RuleId} {expand : Context → Body}
    (h : grammar.expand? rule = some expand) : rule < 14 :=
  Path.lt_length_of_expand? (by rw [h]; rfl)

/-- The body of a rule is laid out as one of its tables tells. -/
theorem layout_of_expand? {rule : RuleId} {expand : Context → Body}
    (h : grammar.expand? rule = some expand) (ctx : Context) :
    ∃ layout ∈ layouts rule, (expand ctx).template = layout.graph := by
  obtain ⟨expand', hexpand, hlayout⟩ := exists_layout (lt_of_expand? h)
  obtain rfl := Option.some.inj (h.symm.trans hexpand)
  exact hlayout ctx

/-- Only the properties of a declaration depend on where they are, and they look at a variable. -/
theorem uniform_grammar : grammar.Uniform where
  regular h ctx := by
    obtain ⟨layout, -, hlayout⟩ := layout_of_expand? h ctx
    rw [hlayout]
    exact layout.regular_graph
  expand_eq {rule expand} h {ctx ctx'} hscopes _ := by
    have hlt := lt_of_expand? h
    by_cases hrule : rule = propertiesRule
    · subst hrule
      obtain rfl := Option.some.inj h
      show propertiesBody ctx = propertiesBody ctx'
      rw [propertiesBody, propertiesBody, Context.var?, Context.var?, Path.var?, Path.var?, hscopes]
    · interval_cases rule <;> first
        | exact absurd rfl hrule
        | (obtain rfl := Option.some.inj h; rfl)

/-- No body links to the end of a rule. -/
theorem endsApart_grammar : grammar.EndsApart := by
  have hall : ∀ rule < 14, ∀ layout ∈ layouts rule, layout.graph.EndsApart 0 layout.graph.size := by
    decide +kernel
  intro rule expand h ctx
  obtain ⟨layout, hmem, hlayout⟩ := layout_of_expand? h ctx
  rw [Body.EndsApart, hlayout]
  exact hall rule (lt_of_expand? h) layout hmem

namespace Layout

/-- The exit of a body is a passage that leads nowhere, links and ends are within the body, the end
of a reference leads on, and a slot for the name of a rule comes behind one for the name of a token
that leads on to the same nodes. -/
structure Sound (layout : Layout) : Prop where
  exit : layout[1]? = some (.junction, [])
  link_lt : ∀ {i : Nat} {spot : Spot} {links : List Nat}
    {j : Nat}, layout[i]? = some (spot, links) → j ∈ links → j < layout.length
  stop_lt : ∀ {i : Nat} {rule : RuleId} {ident : Option String} {stop : Nat} {links : List Nat},
    layout[i]? = some (.start rule ident stop, links) → stop < layout.length
  close_ne_nil : ∀ {i : Nat} {rule : RuleId} {ident : Option String} {links : List Nat},
    layout[i]? = some (.close rule ident, links) → links ≠ []
  rival : ∀ {i : Nat} {spot : Spot} {links : List Nat} {j type : Nat} {links' : List Nat},
    layout[i]? = some (spot, links) → j ∈ links → layout[j]? = some (.slot type "rule", links') →
    ∃ k ∈ links.takeWhile (· != j), layout[k]? = some (.slot 1 "token", links')

/-- The same as a check of the table. -/
def checks (layout : Layout) : Bool :=
  layout[1]? == some (.junction, []) && layout.all fun (spot, links) =>
    (links.all fun j => j < layout.length && match layout[j]? with
      | some (.slot _ (some "rule"), links') =>
        (links.takeWhile (· != j)).any fun k => layout[k]? == some (.slot 1 (some "token"), links')
      | _ => true) &&
    match spot with
    | .start _ _ stop => stop < layout.length
    | .close .. => !links.isEmpty
    | _ => true

theorem sound_of_checks {layout : Layout} (h : layout.checks = true) : layout.Sound := by
  obtain ⟨hexit, hall⟩ := Bool.and_eq_true_iff.mp h
  have hnode : ∀ {i spot links}, layout[i]? = some (spot, links) → _ := fun hi =>
    Bool.and_eq_true_iff.mp (List.all_eq_true.mp hall _ (List.mem_of_getElem? hi))
  have hlink : ∀ {i spot links j}, layout[i]? = some (spot, links) → j ∈ links → _ := fun hi hj =>
    Bool.and_eq_true_iff.mp (List.all_eq_true.mp (hnode hi).1 _ hj)
  constructor
  · exact eq_of_beq hexit
  · exact fun hi hj => of_decide_eq_true (hlink hi hj).1
  · exact fun hi => of_decide_eq_true (hnode hi).2
  · intro i rule ident links hi
    have hempty : (!links.isEmpty) = true := (hnode hi).2
    rintro rfl
    exact absurd hempty nofun
  · intro i spot links j type links' hi hj hj'
    have hbefore := (hlink hi hj).2
    rw [hj'] at hbefore
    obtain ⟨k, hk, heq⟩ := List.any_eq_true.mp hbefore
    exact ⟨k, hk, eq_of_beq heq⟩

end Layout

theorem lt_of_mem_layouts {rule : RuleId} {layout : Layout} (h : layout ∈ layouts rule) :
    rule < 14 := by
  by_contra hge
  unfold layouts at h
  split at h <;> simp at h hge

theorem sound_layouts {rule : RuleId} {layout : Layout} (h : layout ∈ layouts rule) :
    layout.Sound := by
  have hall : ∀ rule < 14, (layouts rule).all Layout.checks = true := by decide +kernel
  exact Layout.sound_of_checks (List.all_eq_true.mp (hall rule (lt_of_mem_layouts h)) layout h)

section

variable {a b graph : Graph} {base i : Nat} {layout : Layout} {stop n : NodeId} {spot : Spot}
  {links : List Nat}

theorem exists_of_lt_length (h : i < layout.length) :
    ∃ spot links, layout[i]? = some (spot, links) :=
  ⟨_, _, List.getElem?_eq_getElem h⟩

/-- What a node of a body is left to. -/
theorem targets_of_holds (h : graph.Holds base layout.graph stop)
    (hi : layout[i]? = some (spot, links)) (hn : n ∈ graph.targets (base + i)) :
    (∃ j ∈ links, n = base + j) ∨ (i = 1 ∧ n = stop) := by
  have hk := kind_of_holds h hi
  have hwired := wired_of_holds h hi
  have hmem : n ∈ graph.wired (base + i) := by
    rw [Graph.targets, hk] at hn
    cases spot with
    | start => exact absurd hn List.not_mem_nil
    | junction | slot | close => exact hn
  rw [hwired, List.mem_append, List.mem_map] at hmem
  rcases hmem with ⟨j, hj, rfl⟩ | hmem
  · exact .inl ⟨j, hj, rfl⟩
  · split at hmem
    · next hexit => exact .inr ⟨hexit, List.mem_singleton.mp hmem⟩
    · exact absurd hmem List.not_mem_nil

/-- A slot for the name of a rule comes behind one for the name of a token that leads on to the same
nodes, and the ends of references are ends. -/
structure Ranked (graph : Graph) : Prop where
  rivals : ∀ u n, n ∈ graph.targets u → graph.kind n = .slot ruleName "rule" none →
    ∃ m, graph.Rivals u tokenName m n
  stops : ∀ n rule ident stop, graph.kind n = .ruleStart rule ident stop →
    (graph.kind stop).isRuleEnd = true

theorem ranked_ofGrammar : Ranked (.ofGrammar grammar) where
  rivals u n hn := by
    rw [Graph.targets_ofGrammar] at hn
    exact absurd hn List.not_mem_nil
  stops n rule ident stop hk := by
    match n with
    | 0 => exact absurd hk nofun
    | 1 =>
      obtain ⟨-, -, rfl⟩ := NodeKind.ruleStart.inj hk
      rfl
    | n + 2 =>
      rw [Graph.kind_of_size_le (Nat.le_add_left 2 n)] at hk
      exact absurd hk nofun

/-- Of two links the one that is drawn first is preferred. -/
theorem prefers_of_holds (h : graph.Holds base layout.graph stop)
    (hi : layout[i]? = some (spot, links)) {j k : Nat} (hj : j ∈ links)
    (hk : k ∈ links.takeWhile (· != j)) : graph.Prefers (base + i) (base + k) (base + j) := by
  obtain ⟨before, behind, rfl, hnot⟩ := List.eq_append_cons_of_mem hj
  have hbefore : ∀ m ∈ before, (m != j) = true := fun m hm => bne_iff_ne.mpr fun heq =>
    hnot (heq ▸ hm)
  rw [List.takeWhile_append_of_pos hbefore, List.takeWhile_cons_of_neg (by simp),
    List.append_nil] at hk
  have hwired := wired_of_holds h hi
  rw [List.map_append, List.map_cons, List.append_assoc, List.cons_append] at hwired
  refine ⟨_, _, hwired, List.mem_map_of_mem hk, fun hmem => ?_⟩
  obtain ⟨m, hm, heq⟩ := List.mem_map.mp hmem
  exact hnot (Nat.add_left_cancel heq ▸ hm)

theorem wired_of_slot (hlayout : layout.Sound) (h : graph.Holds base layout.graph stop) {type : Nat}
    {ident : Option String} (hi : layout[i]? = some (.slot type ident, links)) :
    graph.wired (base + i) = links.map (base + ·) := by
  rw [wired_of_holds h hi, if_neg, List.append_nil]
  rintro rfl
  exact absurd (hlayout.exit.symm.trans hi) nofun

/-- In a body. -/
theorem rivals_of_holds (hlayout : layout.Sound) (h : graph.Holds base layout.graph stop)
    (hstop : (graph.kind stop).isRuleEnd = true) (hi : layout[i]? = some (spot, links))
    (hn : n ∈ graph.targets (base + i)) (hk : graph.kind n = .slot ruleName "rule" none) :
    ∃ m, graph.Rivals (base + i) tokenName m n := by
  rcases targets_of_holds h hi hn with ⟨j, hj, rfl⟩ | ⟨-, rfl⟩
  · obtain ⟨spot', links', hj'⟩ := exists_of_lt_length (hlayout.link_lt hi hj)
    have hkind := (kind_of_holds h hj').symm.trans hk
    cases spot' with
    | junction | start | close => exact absurd hkind nofun
    | slot type ident =>
      obtain ⟨-, rfl, -⟩ := NodeKind.slot.inj hkind
      obtain ⟨k, hk, hk'⟩ := hlayout.rival hi hj hj'
      refine ⟨base + k, ⟨prefers_of_holds h hi hj hk, ⟨_, kind_of_holds h hk'⟩, ?_⟩⟩
      rw [wired_of_slot hlayout h hk', wired_of_slot hlayout h hj']
  · rw [hk] at hstop
    exact absurd hstop nofun

end

namespace Ranked

variable {a b : Graph} {id : NodeId} {ctx : Context} {next : List NodeId}

theorem addBody (h : Ranked a) (hwell : a.WellFormed) {layout : Layout} (hlayout : layout.Sound)
    {body : Body} (htemplate : body.template = layout.graph) {stop : NodeId} (hlt : stop < a.size)
    (hstop : (a.kind stop).isRuleEnd = true) : Ranked (a.addBody body stop).2 := by
  have hbody := Graph.addBody_hasBody a body stop
  have hholds := Graph.holds_addBody hlt body
  rw [htemplate] at hholds
  have hstop' : ((a.addBody body stop).2.kind stop).isRuleEnd = true := by
    rwa [Graph.kind_of_le hbody.le hlt]
  have hinside {n : NodeId} (hn : a.size ≤ n) (hhi : n < (a.addBody body stop).2.size) :
      ∃ i spot links, n = a.size + i ∧ layout[i]? = some (spot, links) := by
    obtain ⟨i, rfl⟩ := Nat.exists_eq_add_of_le hn
    rw [Graph.size_addBody, htemplate, Layout.size_graph] at hhi
    obtain ⟨spot, links, hi⟩ := exists_of_lt_length (Nat.lt_of_add_lt_add_left hhi)
    exact ⟨i, spot, links, rfl, hi⟩
  constructor
  · intro u n hn hk
    rcases lt_or_ge u a.size with hu | hu
    · rw [Graph.targets_of_le hbody.le hu] at hn
      rw [Graph.kind_of_le hbody.le (hwell.targets_lt u n hn)] at hk
      obtain ⟨m, hrivals⟩ := h.rivals u n hn hk
      exact ⟨m, hrivals.of_le hbody.le (hwell.targets_lt u n hn)⟩
    · obtain ⟨i, spot, links, rfl, hi⟩ := hinside hu (Graph.lt_size_of_mem_targets hn)
      exact rivals_of_holds hlayout hholds hstop' hi hn hk
  · intro n rule ident stop' hk
    rcases lt_or_ge n a.size with hn | hn
    · rw [Graph.kind_of_le hbody.le hn] at hk
      rw [Graph.kind_of_le hbody.le (hwell.stop_lt n rule ident stop' hk)]
      exact h.stops n rule ident stop' hk
    · obtain ⟨-, -, hend⟩ :=
        hbody.region.stops n rule ident stop' hn (Graph.lt_size_of_startedRule (by rw [hk]; rfl)) hk
      rw [hend]
      rfl

theorem leaves (h : a.Leaves grammar id ctx next b) (hwell : a.WellFormed) (ha : Ranked a) :
    Ranked b := by
  cases h with
  | enter hk hexpand =>
    obtain ⟨layout, hlayout, htemplate⟩ := layout_of_expand? hexpand ctx
    exact ha.addBody hwell (sound_layouts hlayout) htemplate (hwell.stop_lt _ _ _ _ hk)
      (ha.stops _ _ _ _ hk)
  | gate | switch | wired => exact ha

end Ranked

/-- The end of a reference leads on within its body. -/
theorem links_grammar : grammar.Links := by
  intro rule expand hexpand ctx a stop n hloose
  obtain ⟨layout, hlayout, htemplate⟩ := layout_of_expand? hexpand ctx
  rw [Graph.addBody_eq, htemplate] at hloose
  obtain ⟨hend, hwired⟩ := hloose.of_connect.1
  by_cases hn : n < a.size
  · have hnode : (a.above layout.graph).nodes[n]? = a.nodes[n]? := Array.getElem?_append_left hn
    rw [Graph.kind, hnode] at hend
    rw [Graph.wired, hnode] at hwired
    exact ⟨hend, hwired⟩
  · obtain ⟨i, rfl⟩ := Nat.exists_eq_add_of_le (not_lt.mp hn)
    rw [Graph.kind, Graph.nodes_above] at hend
    rw [Graph.wired, Graph.nodes_above] at hwired
    cases hi : layout[i]? with
    | none =>
      have hnone : layout.graph.nodes[i]? = none := by simp [Layout.graph, hi]
      rw [hnone] at hend
      exact absurd hend Bool.false_ne_true
    | some node =>
      obtain ⟨spot, links⟩ := node
      rw [Layout.nodes_graph hi] at hend hwired
      cases spot with
      | junction | slot | start => exact absurd hend Bool.false_ne_true
      | close rule ident =>
        have hnil : links.map (a.size + ·) = [] := hwired
        exact absurd (List.map_eq_nil_iff.mp hnil) ((sound_layouts hlayout).close_ne_nil hi)

/-! ## Tokens on the path -/

/-- Every type is declared: the words by patterns for all of a text. -/
theorem declared_types : ∀ type ∈ types.types, type.kind.Declared := by
  simp only [types, List.forall_mem_cons]
  refine ⟨.word, .literal, ?_⟩
  refine ⟨.separator, .separator, .separator, .separator, .separator, .separator, .separator,
    .separator, .separator, ?_⟩
  refine ⟨.keyword, .keyword, .keyword, .keyword, .keyword, .keyword, .keyword, .keyword, .keyword,
    .keyword, ?_⟩
  refine ⟨.keyword, .keyword, .keyword, .keyword, .keyword, .word, .keyword, ?_⟩
  exact ⟨.word, .separator, .separator, .separator, fun _ h => absurd h List.not_mem_nil⟩

/-- A slot takes a token of its type, but one for the name of a rule takes none that could
be the name of a token. -/
structure Takes (type : TokenType) (ident : Option String) (token : Token) : Prop where
  classed : token.ClassedBy types.types
  hasType : token.hasType type.id = true
  ranked : type = ruleName → ident = some "rule" → token.hasType tokenName.id = false

namespace Takes

variable {type : TokenType} {ident : Option String} {token : Token}

theorem mem_types (h : Takes type ident token) (htype : Known type) : type ∈ token.types := by
  obtain ⟨other, hmem, hid⟩ := List.any_eq_true.mp h.hasType
  have hother : other ∈ types.types := h.classed.truthful.mem other hmem
  rwa [(known_of_mem hother).eq htype (eq_of_beq hid)] at hmem

/-- The type fits the text of the token. -/
theorem fits (h : Takes type ident token) (htype : Known type) :
    fits type.kind token.text = true := by
  have hmem := h.mem_types htype
  have haccepts : type.kind.isSeparator = false → type.kind.accepts token.text.toList = true →
      Meta.fits type.kind token.text = true := by
    intro hsep haccepts
    cases hkind : type.kind with
    | separator => rw [hkind] at hsep; exact absurd hsep nofun
    | _ => rwa [hkind] at haccepts
  cases h.classed with
  | alone _ htypes hmade =>
    obtain rfl := List.mem_singleton.mp (htypes ▸ hmem)
    cases hkind : type.kind with
    | word | keyword => rw [hkind] at hmade; exact hmade.elim
    | literal => rw [hkind] at hmade; exact hmade
    | separator => rw [hkind] at hmade; exact beq_iff_eq.mpr (String.toList_inj.mp hmade)
    | leading | trailing | patternSeparator =>
      have hspelt := isWellSpelt_of_mem htype.mem
      rw [hkind] at hspelt
      exact absurd hspelt nofun
  | plain keyword htypes hkeyword =>
    rw [htypes, List.mem_append, Option.mem_toList, List.mem_filter, Bool.and_eq_true] at hmem
    rcases hmem with hmem | ⟨-, hword, hmem⟩
    · obtain ⟨-, hkind, haccepted⟩ := hkeyword type hmem
      refine haccepts ?_ haccepted
      cases hk : type.kind with
      | keyword => rfl
      | _ => rw [hk] at hkind; exact absurd hkind nofun
    · refine haccepts ?_ hmem
      cases hk : type.kind with
      | word => rfl
      | _ => rw [hk] at hword; exact absurd hword nofun

/-- What is taken for the name of a rule could not be the name of a token. -/
theorem not_isTokenName (h : Takes ruleName (some "rule") token) :
    isTokenName token.text = false := by
  have hmem := h.mem_types (rfl : Known ruleName)
  have hranked := h.ranked rfl rfl
  cases h.classed with
  | alone _ htypes hmade =>
    obtain rfl := List.mem_singleton.mp (htypes ▸ hmem)
    exact hmade.elim
  | plain keyword htypes =>
    refine Bool.eq_false_iff.mpr fun hname => Bool.false_ne_true (hranked.symm.trans ?_)
    refine List.any_eq_true.mpr ⟨tokenName, ?_, beq_self_eq_true _⟩
    rw [htypes]
    refine List.mem_append_right
      _ (List.mem_filter.mpr ⟨List.mem_cons_self, Bool.and_eq_true_iff.mpr ⟨rfl, ?_⟩⟩)
    exact (accepts_tokenName token.text).trans hname

end Takes

section

variable {p : Parser} {text : List Char} {source : Option String} {fuel : Nat} {s : Search}

theorem ranked_of_searchWithin (hg : p.grammar = grammar)
    (h : p.searchWithin fuel text source = some (.ok s)) : Ranked s.graph := by
  obtain ⟨bound, hexplore⟩ := Parser.exists_explore_of_searchWithin
    (Parser.hooksRevert_of_uniform (hg ▸ uniform_grammar)) h
  rw [hg] at hexplore
  have harena := Search.arena_explore_of (R := fun a b => a.WellFormed ∧ Ranked a → b.WellFormed ∧
    Ranked b) (fun _ => id) (fun h h' => h' ∘ h) ?_ hexplore
  · exact (harena ⟨Graph.wellFormed_ofGrammar _, ranked_ofGrammar⟩).2
  · rintro a id ctx next b hsucc ⟨hwell, hranked⟩
    have hleaves := Graph.leaves_of_successors hsucc
    exact ⟨hleaves.wellFormed hwell, hranked.leaves hleaves hwell⟩

/-- What the slots on the path took, whatever the text.  The lexer may know comments. -/
theorem takes_of_searchWithin (hg : p.grammar = grammar) (hlx : p.lexer.Knows types.types)
    (h : p.searchWithin fuel text source = some (.ok s)) :
    ∀ e ∈ s.path.elements, Path.Takes s.graph Takes e := by
  have huniform : p.grammar.Uniform := hg ▸ uniform_grammar
  obtain ⟨-, -, hlegal, htip⟩ :=
    Parser.legal_of_searchWithin (Parser.hooksRevert_of_uniform huniform) h
  intro e he type ident hook token hk htoken
  refine ⟨?_, (Search.matched_of_legal hlegal htip e he).takes type ident hook token hk htoken, ?_⟩
  · obtain ⟨stream, hpulls, -, -, hend⟩ := Parser.pulls_of_searchWithin h
    refine Stream.classed_tokenizeFrom hlx declared_types
      (Parser.tokenizeFrom_of_pulls hpulls hend) token ?_
    rw [Path.tokens, List.mem_filterMap]
    exact ⟨e, List.mem_reverse.mpr he, htoken⟩
  · rintro rfl rfl
    obtain rfl : hook = none := by
      have hregular := Parser.regular_of_searchWithin huniform h e.node
      rwa [hk] at hregular
    obtain ⟨parent, -, hmem, hrivals⟩ :=
      Parser.not_hasType_of_rivals huniform (hg ▸ endsApart_grammar) h he htoken (by rw [hk]; rfl)
    obtain ⟨m, hm⟩ := (ranked_of_searchWithin hg h).rivals parent.node e.node hmem hk
    exact hrivals m tokenName hm

end

end GrammarGraph.Meta
