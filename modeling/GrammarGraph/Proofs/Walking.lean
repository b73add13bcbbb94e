import GrammarGraph.Proofs.Layouts

/-!
# Walking over the bodies of the grammar of definitions

In the body of a rule the search goes from one word to the next along links that the tables tell
(`Meta.routes`).  Neither the nodes visited on the way nor the rules entered since the last word
stop it, as long as they are accounted for (`Meta.At`).
-/

namespace GrammarGraph.Meta

open GrammarGraph.Search GrammarGraph.Path

/-- An instance of a rule: where its body begins, what it looks like, and the node behind it. -/
structure Site where
  base : Nat
  layout : Layout
  stop : NodeId

variable {s : Site} {goal T top parent : Tree} {graph a b : Graph} {els els' : List PathElement}
  {i n : Nat} {fresh closed : Bool} {seen path links may : List Nat} {rules : List RuleId}
  {opened outer : List Tree} {word : String} {words rest : List String} {spot : Spot}
  {rule : RuleId} {ident : Option String} {stop : NodeId} {type : Nat}

/-- The path stands on a node of the body.  Since the last word it has visited, of the body, only
the nodes of the list; while the body is fresh, nodes before it, too; and any number of nodes behind
it.  Of the rules it has started only those of the list. -/
structure At (s : Site) (graph : Graph) (els : List PathElement) (i : Nat) (fresh : Bool)
    (seen : List Nat) (rules : List RuleId) : Prop where
  holds : graph.Holds s.base s.layout.graph s.stop
  stop_lt : s.stop < s.base
  tip : ∃ token rest, els = ⟨s.base + i, token⟩ :: rest
  visited : ∀ m ∈ visited els, (fresh = true ∧ m < s.base) ∨ s.base + s.layout.length ≤ m ∨
    ∃ j ∈ seen, m = s.base + j
  started : ∀ m ∈ Path.visited els, ∀ rule, (graph.kind m).startedRule? = some rule → rule ∈ rules

/-! ## Routes -/

/-- Whether the search goes on from a node to another of its links, since the ones
before it are dead ends. -/
def leads (may : List Nat) (closed : Bool) (layout : Layout) (i n : Nat) : Bool :=
  match layout[i]? with
  | some (_, links) =>
    i != 1 && links.contains n && (links.takeWhile (· != n)).all (shuts may closed 20 layout)
  | none => false

/-- The same along junctions, none of which was seen before. -/
def routes (may : List Nat) (closed : Bool) (layout : Layout) : Nat → List Nat → List Nat → Bool
  | _, _, [] => true
  | i, seen, n :: path =>
    leads may closed layout i n && !seen.contains n && (layout[n]?.map (·.1) == some .junction) &&
      routes may closed layout n (n :: seen) path

/-- The path behind further junctions. -/
def along (base : Nat) (path : List Nat) (els : List PathElement) : List PathElement :=
  path.foldl (fun els n => ⟨base + n, none⟩ :: els) els

namespace At

theorem mono {seen' : List Nat} (h : At s graph els i fresh seen rules)
    (hseen : ∀ j ∈ seen, j ∈ seen') : At s graph els i fresh seen' rules where
  holds := h.holds
  stop_lt := h.stop_lt
  tip := h.tip
  visited m hm := (h.visited m hm).imp_right (Or.imp_right fun ⟨j, hj, heq⟩ => ⟨j, hseen j hj, heq⟩)
  started := h.started

theorem push_none (h : At s graph els i fresh seen rules) (hn : s.layout[n]? = some (spot, links))
    (hspot : spot.kind.startedRule? = none) :
    At s graph (⟨s.base + n, none⟩ :: els) n fresh (n :: seen) rules where
  holds := h.holds
  stop_lt := h.stop_lt
  tip := ⟨none, els, rfl⟩
  visited m hm := by
    rw [visited_cons_none, List.mem_cons] at hm
    obtain rfl | hm := hm
    · exact .inr (.inr ⟨n, List.mem_cons_self, rfl⟩)
    · exact (h.visited m hm).imp_right
        (Or.imp_right fun ⟨j, hj, heq⟩ => ⟨j, List.mem_cons_of_mem _ hj, heq⟩)
  started m hm rule hrule := by
    rw [visited_cons_none, List.mem_cons] at hm
    obtain rfl | hm := hm
    · rw [kind_of_holds h.holds hn] at hrule
      rw [NodeKind.startedRule?_moved, hspot] at hrule
      exact absurd hrule nofun
    · exact h.started m hm rule hrule

theorem of_token (h : At s graph els i fresh seen rules) (n : Nat) (token : Token) :
    At s graph (⟨s.base + n, some token⟩ :: els) n false [] [] where
  holds := h.holds
  stop_lt := h.stop_lt
  tip := ⟨some token, els, rfl⟩
  visited m hm := by
    rw [visited_cons_some] at hm
    exact absurd hm nofun
  started m hm := by
    rw [visited_cons_some] at hm
    exact absurd hm nofun

theorem not_revisits (h : At s graph els i fresh seen rules)
    (hn : s.layout[n]? = some (spot, links)) (hseen : n ∉ seen)
    (hrule : ∀ rule ∈ spot.kind.startedRule?, rule ∉ rules) :
    revisitsIn graph (s.base + n) 0 els = false := by
  obtain ⟨hlt, -⟩ := List.getElem?_eq_some_iff.mp hn
  refine Path.not_revisits (fun hmem => ?_) (fun rule hk m hm hstarted => ?_) 0
  · rcases h.visited _ hmem with ⟨-, hlt'⟩ | hle | ⟨j, hj, heq⟩
    · exact Nat.not_lt.mpr (Nat.le_add_right _ _) hlt'
    · exact Nat.not_le.mpr hlt (Nat.le_of_add_le_add_left hle)
    · exact hseen (Nat.add_left_cancel heq ▸ hj)
  · rw [kind_of_holds h.holds hn, NodeKind.startedRule?_moved] at hk
    exact hrule rule hk (h.started m hm rule hstarted)

theorem stands_junction (h : At s graph els i fresh seen rules)
    (hs : Stands grammar graph els opened) (hn : s.layout[n]? = some (.junction, links)) :
    Stands grammar graph (⟨s.base + n, none⟩ :: els) opened :=
  hs.junction (lt_size_of_holds h.holds (List.getElem?_eq_some_iff.mp hn).1)
    (kind_of_holds h.holds hn)

/-- What is behind the body does not matter. -/
theorem open_end {P : Prop} (h : false = true) : P := absurd h Bool.false_ne_true

/-- The search goes on to a node that is linked. -/
theorem reads_of_leads (h : At s graph els i fresh seen rules) (hmay : Admits may words.head?)
    (hclosed : closed = true → Shut graph words.head? s.stop)
    (hleads : leads may closed s.layout i n = true) (hseen : n ∉ seen)
    (hn : s.layout[n]? = some (spot, links)) (hrule : ∀ rule ∈ spot.kind.startedRule?, rule ∉ rules)
    (henters : Enters goal graph (s.base + n) els opened words) :
    Reads goal graph els opened words := by
  obtain ⟨token, rest, rfl⟩ := h.tip
  rw [leads] at hleads
  split at hleads
  · next spot' links' hi =>
    simp only [Bool.and_eq_true, bne_iff_ne, List.contains_iff_mem, List.all_eq_true] at hleads
    obtain ⟨⟨hexit, hmem⟩, hbefore⟩ := hleads
    have hwired := wired_of_holds h.holds hi
    obtain ⟨before, behind, rfl, hnot⟩ := List.eq_append_cons_of_mem hmem
    have hbeforeNe : ∀ j ∈ before, (j != n) = true := fun j hj => bne_iff_ne.mpr fun heq =>
      hnot (heq ▸ hj)
    rw [List.takeWhile_append_of_pos hbeforeNe,
      List.takeWhile_cons_of_neg (by simp), List.append_nil] at hbefore
    rw [if_neg hexit, List.append_nil, List.map_append, List.map_cons] at hwired
    refine Reads.step hwired ?_ (h.not_revisits hn hseen hrule) henters
    exact List.forall_mem_map.mpr fun j hj => shut_of_shuts hmay h.holds hclosed (hbefore j hj)
  · exact absurd hleads nofun

theorem reads_of_routes (h : At s graph els i fresh seen rules) (hmay : Admits may words.head?)
    (hclosed : closed = true → Shut graph words.head? s.stop)
    (hroutes : routes may closed s.layout i seen path = true)
    (hreads : At s graph (along s.base path els) (path.getLastD i) fresh (path.reverse ++ seen)
        rules →
      Reads goal graph (along s.base path els) opened words) :
    Reads goal graph els opened words := by
  induction path generalizing els i seen with
  | nil => exact hreads h
  | cons n path ih =>
    simp only [routes, Bool.and_eq_true, Bool.not_eq_true', beq_iff_eq] at hroutes
    obtain ⟨⟨⟨hleads, hseen⟩, hjunction⟩, hrest⟩ := hroutes
    obtain ⟨⟨spot, links⟩, hn, hspot⟩ := Option.map_eq_some_iff.mp hjunction
    obtain rfl : spot = .junction := hspot
    refine h.reads_of_leads hmay hclosed hleads (by simpa using hseen) hn
      (fun _ hrule => by cases hrule) ?_
    have hlt := (List.getElem?_eq_some_iff.mp hn).1
    refine Enters.junction (lt_size_of_holds h.holds hlt) (kind_of_holds h.holds hn) ?_
    refine ih (h.push_none hn rfl) hrest fun hat => ?_
    rw [List.reverse_cons, List.append_assoc, List.singleton_append, List.getLastD_cons] at hreads
    exact hreads hat

theorem walk (h : At s graph els i fresh seen rules) (path may : List Nat)
    (hmay : Admits may words.head?) (hroutes : routes may false s.layout i seen path = true)
    (hreads : At s graph (along s.base path els) (path.getLastD i) fresh (path.reverse ++ seen)
        rules →
      Reads goal graph (along s.base path els) opened words) :
    Reads goal graph els opened words :=
  h.reads_of_routes hmay open_end hroutes hreads

/-- Where the first link of each node is the one to follow, the next word does not matter. -/
theorem follow (h : At s graph els i fresh seen rules) (path : List Nat)
    (hroutes : routes everything false s.layout i seen path = true)
    (hreads : At s graph (along s.base path els) (path.getLastD i) fresh (path.reverse ++ seen)
        rules →
      Reads goal graph (along s.base path els) opened words) :
    Reads goal graph els opened words :=
  h.walk path everything (admits_everything _) hroutes hreads

/-- Along a route a slot takes the next word. -/
theorem take (h : At s graph els i fresh seen rules) (path : List Nat) (n : Nat) (may : List Nat)
    (hmay : Admits may (some word)) (hroutes : routes may false s.layout i seen path = true)
    (hleads : leads may false s.layout (path.getLastD i) n = true)
    (hseen : n ∉ path.reverse ++ seen) (hn : s.layout[n]? = some (.slot type ident, links))
    (hfits : fits (typeAt type).kind word = true)
    (hreads : ∀ token : Token, token.text = word → Typed token →
      At s graph (⟨s.base + n, some token⟩ :: along s.base path els) n false [] [] →
      Recovers goal graph (⟨s.base + n, some token⟩ :: along s.base path els)
        (top.addChild (.ofToken token (ident.getD "")) :: outer) words) :
    Reads goal graph els (top :: outer) (word :: words) := by
  refine h.walk path may hmay hroutes fun hat => ?_
  refine hat.reads_of_leads hmay open_end hleads hseen hn nofun ?_
  have hlt := (List.getElem?_eq_some_iff.mp hn).1
  refine Enters.slot (lt_size_of_holds h.holds hlt) (kind_of_holds h.holds hn)
    (known_typeAt type) hfits ?_
  exact fun token htext htyped => hreads token htext htyped (hat.of_token n token)

/-- Behind a word nothing before the body is visited until it is left. -/
theorem stop_not_mem (h : At s graph els i false seen rules) : s.stop ∉ Path.visited els := by
  intro hmem
  rcases h.visited _ hmem with ⟨hfalse, -⟩ | hle | ⟨j, -, heq⟩
  · exact absurd hfalse Bool.false_ne_true
  · exact Nat.not_lt.mpr (Nat.le_of_add_right_le hle) h.stop_lt
  · exact Nat.not_lt.mpr (heq ▸ Nat.le_add_right _ _) h.stop_lt

/-- Behind the exit the rule ends. -/
theorem reads_stop (h : At s graph els 1 fresh seen rules) (hstop : s.stop ∉ Path.visited els)
    (hexit : s.layout[1]? = some (.junction, [])) (hk : graph.kind s.stop = .ruleEnd rule ident)
    (henters : Enters goal graph s.stop els opened words) : Reads goal graph els opened words := by
  obtain ⟨token, rest, rfl⟩ := h.tip
  have hwired := wired_of_holds h.holds hexit
  rw [if_pos rfl, List.map_nil] at hwired
  refine Reads.step hwired nofun (Path.not_revisits hstop (fun rule hstart => ?_) 0) henters
  rw [hk] at hstart
  exact absurd hstart nofun

/-- Behind the end of a rule its node is one of those of the node around it. -/
theorem leave (h : At s graph els 1 false seen rules) (hexit : s.layout[1]? = some (.junction, []))
    (hk : graph.kind s.stop = .ruleEnd rule ident) (hreads : Reads goal graph (⟨s.stop, none⟩ ::
      els) (parent.addChild (top.transformed grammar .ast rule) :: outer) words) :
    Reads goal graph els (top :: parent :: outer) words :=
  h.reads_stop h.stop_not_mem hexit hk fun hs => hreads (hs.close hk)

end At

/-! ## Rules -/

/-- The rules that may have been started since the last word where this one starts. -/
def above : RuleId → List RuleId
  | 9 => [10]
  | 11 => [9, 10]
  | 2 | 10 | 13 => []
  | _ => [13]

/-- Behind an instance of a rule the path stands on its end.  Since the last word it has visited
nothing else of what was there before the instance. -/
structure Returned (a b : Graph) (els : List PathElement) (stop : NodeId) : Prop where
  le : a ≤ b
  tip : ∃ rest, els = ⟨stop, none⟩ :: rest
  visited : ∀ m ∈ visited els, m = stop ∨ a.size ≤ m
  started : ∀ m ∈ Path.visited els, (b.kind m).startedRule? = none

/-- Where a rule starts and `cond` holds there, it reads the words and becomes the
node, whatever is around it. -/
def Yields (rule : RuleId) (cond : Graph → List PathElement → NodeId → NodeId → Prop)
    (words : List String) (T : Tree) (rest : List String) : Prop :=
  ∀ (goal : Tree) (graph : Graph) (els : List PathElement) (top : Tree) (outer : List Tree)
    (n : NodeId) (ident : Option String) (stop : NodeId),
    graph.kind n = .ruleStart rule ident stop → graph.kind stop = .ruleEnd rule ident →
    (∀ m ∈ Path.visited els, ∀ r, (graph.kind m).startedRule? = some r → r ∈ above rule) →
    cond graph els n stop → (∀ b els', Returned graph b els' stop →
      Reads goal b els' (top.addChild { T with id := ident.getD "" } :: outer) rest) →
    Enters goal graph n els (top :: outer) (words ++ rest)

/-- The node that an instance opens. -/
def opening (rule : RuleId) (ident : Option String) : Tree :=
  ⟨grammar.ruleName rule, "", ident.getD "", [], none⟩

/-- The entry of a fresh body behind the start of its rule. -/
theorem stands_entry (body : Body) (hregular : graph.Regular) (hlt : ∀ e ∈ els, e.node < graph.size)
    (hopens : ∀ c, graph ≤ c → Tree.Opens grammar c .ast els opened) (hbody : body.template.Regular)
    (stop : NodeId) :
    Stands grammar (graph.addBody body stop).2 (⟨graph.size, none⟩ :: els) opened := by
  have hadd := Graph.addBody_hasBody graph body stop
  have hentry : graph.size < (graph.addBody body stop).2.size := hadd.region.1
  have hregular := hregular.addBody_of_template hbody stop
  generalize (graph.addBody body stop).2 = b at hadd hregular hentry
  refine ⟨hregular,
    List.forall_mem_cons.mpr ⟨hentry, fun e he => lt_of_lt_of_le (hlt e he) hadd.le.1⟩, ?_, ?_⟩
  · intro e he
    obtain rfl := Option.some.inj he
    exact left_of_junction hadd.entry
  · intro c hc
    refine (hopens c (le_trans hadd.le hc)).cons (fun rest => ?_) rfl (by simp)
    rw [Tree.reduceFrom, Graph.kind_of_le hc hentry, hadd.entry]

/-- The start of an inner rule opens its node. -/
theorem opens_start (h : Tree.Opens grammar graph .ast els opened)
    (hk : graph.kind n = .ruleStart rule ident stop) :
    Tree.Opens grammar graph .ast (⟨n, none⟩ :: els) (opening rule ident :: opened) := by
  refine h.cons (fun rest => ?_) ?_ nofun
  · rw [Tree.reduceFrom, hk]
    rfl
  · obtain ⟨t, ts, rfl⟩ := List.exists_cons_of_ne_nil h.ne_nil
    rfl

/-- The innermost scope of the path is that of an instance of the rule. -/
def Within (graph : Graph) (els : List PathElement) (rule : RuleId) : Prop :=
  ∃ outer, (ofElements graph grammar els).path.scopes = .active (grammar.ruleVars rule) :: outer

theorem Within.push (h : Within graph els rule) {m : NodeId} {token : Option Token}
    (hk : graph.kind m = .junction ∨ ∃ type ident, graph.kind m = .slot type ident none) :
    Within graph (⟨m, token⟩ :: els) rule := by
  obtain ⟨outer, hscopes⟩ := h
  refine ⟨outer, Eq.trans ?_ hscopes⟩
  show ((ofElements graph grammar els).path.push graph grammar m token).scopes = _
  rcases hk with hk | ⟨type, ident, hk⟩ <;> simp only [Path.push, hk]

theorem within_entry (hk : graph.kind n = .ruleStart rule ident stop) {m : NodeId}
    (hm : graph.kind m = .junction) : Within graph (⟨m, none⟩ :: ⟨n, none⟩ :: els) rule := by
  refine ⟨(ofElements graph grammar els).path.scopes, ?_⟩
  show (((ofElements graph grammar els).path.push graph grammar n none).push graph grammar m
      none).scopes = _
  simp only [Path.push, hk, hm]

/-- The start of a rule is left into a fresh body. -/
theorem proceeds_body (layout : Layout) {expand : Context → Body} {tokens : List Token}
    (hk : graph.kind n = .ruleStart rule ident stop) (hstop : stop < graph.size)
    (hregular : graph.Regular) (hlt : ∀ e ∈ els, e.node < graph.size)
    (hopens : ∀ c, graph ≤ c → Tree.Opens grammar c .ast (⟨n, none⟩ :: els) opened)
    (hstarted : ∀ m ∈ Path.visited els, ∀ r, (graph.kind m).startedRule? = some r → r ∈ above rule)
    (hexpand : grammar.expand? rule = some expand)
    (htemplate : ∀ token, (expand ⟨(ofElements graph grammar (⟨n, none⟩ :: els)).path,
      token⟩).template = layout.graph)
    (hreads : ∀ b, graph ≤ b →
      At ⟨graph.size, layout, stop⟩ b (⟨graph.size, none⟩ :: ⟨n, none⟩ :: els) 0 true [0]
        (rule :: above rule) →
      Within b (⟨graph.size, none⟩ :: ⟨n, none⟩ :: els) rule →
      Reads goal b (⟨graph.size, none⟩ :: ⟨n, none⟩ :: els) opened words)
    (htokens : Spells tokens words) :
    Proceeds grammar false (fun s => Tree.reduce grammar s.graph .ast s.path = goal) graph
      (⟨n, none⟩ :: els) tokens := by
  have hn : n < graph.size := Graph.lt_size_of_startedRule (by rw [hk]; rfl)
  refine Proceeds.enter hk hexpand hlt ?_
  have hbody := Graph.addBody_hasBody graph
    (expand ⟨(ofElements graph grammar (⟨n, none⟩ :: els)).path, tokens.head?⟩) stop
  have hholds := Graph.holds_addBody hstop
    (expand ⟨(ofElements graph grammar (⟨n, none⟩ :: els)).path, tokens.head?⟩)
  have hstands := stands_entry (expand ⟨(ofElements graph grammar (⟨n, none⟩ :: els)).path,
      tokens.head?⟩) hregular (List.forall_mem_cons.mpr ⟨hn, hlt⟩) hopens
    (by rw [htemplate]; exact layout.regular_graph) stop
  rw [htemplate] at hholds
  generalize (graph.addBody (expand _) stop).2 = b at hbody hholds hstands
  have hkn : b.kind n = .ruleStart rule ident stop := by rw [Graph.kind_of_le hbody.le hn, hk]
  refine hreads b hbody.le ⟨hholds, hstop, ⟨none, _, rfl⟩, ?_, ?_⟩ (within_entry hkn hbody.entry)
    hstands tokens htokens
  · simp only [visited_cons_none, List.forall_mem_cons]
    refine ⟨.inr (.inr ⟨0, List.mem_singleton_self 0, rfl⟩), .inl ⟨trivial, hn⟩,
      fun m hm => .inl ⟨trivial, ?_⟩⟩
    exact Path.lt_size_of_mem_visited hlt hm
  · simp only [visited_cons_none, List.forall_mem_cons]
    refine ⟨fun r hr => ?_, fun r hr => ?_, fun m hm r hr => List.mem_cons_of_mem _ ?_⟩
    · rw [hbody.entry] at hr
      cases hr
    · rw [hkn] at hr
      rw [← Option.some.inj hr]
      exact List.mem_cons_self
    · rw [Graph.kind_of_le hbody.le (Path.lt_size_of_mem_visited hlt hm)] at hr
      exact hstarted m hm r hr

theorem enters_body {layout : Layout} {expand : Context → Body}
    (hk : graph.kind n = .ruleStart rule ident stop) (hstop : stop < graph.size)
    (hstarted : ∀ m ∈ Path.visited els, ∀ r, (graph.kind m).startedRule? = some r → r ∈ above rule)
    (hexpand : grammar.expand? rule = some expand)
    (htemplate : ∀ token, (expand ⟨(ofElements graph grammar (⟨n, none⟩ :: els)).path,
      token⟩).template = layout.graph)
    (hreads : ∀ b, graph ≤ b →
      At ⟨graph.size, layout, stop⟩ b (⟨graph.size, none⟩ :: ⟨n, none⟩ :: els) 0 true [0]
        (rule :: above rule) →
      Within b (⟨graph.size, none⟩ :: ⟨n, none⟩ :: els) rule →
      Reads goal b (⟨graph.size, none⟩ :: ⟨n, none⟩ :: els) (opening rule ident :: opened) words) :
    Enters goal graph n els opened words := by
  intro hs tokens htokens
  have hn : n < graph.size := Graph.lt_size_of_startedRule (by rw [hk]; rfl)
  refine proceeds_body layout hk hstop hs.regular hs.lt (fun c hc => ?_) hstarted hexpand htemplate
    hreads htokens
  exact opens_start (hs.opens c hc) (by rw [Graph.kind_of_le hc hn, hk])

/-- A rule yields what its body reads from the entry to the exit. -/
theorem yields {cond : Graph → List PathElement → NodeId → NodeId → Prop} (layout : Layout)
    (hexit : layout[1]? = some (.junction, [])) (hlayout : ∀ graph els n stop,
      cond graph els n stop → ∃ expand, grammar.expand? rule = some expand ∧ ∀ token,
      (expand ⟨(ofElements graph grammar (⟨n, none⟩ :: els)).path, token⟩).template = layout.graph)
    (hbody : ∀ {goal : Tree} {a b : Graph} {els els₀ : List PathElement} {s : Site} {n : NodeId}
      {ident : Option String} {parent : Tree} {outer : List Tree}, s.layout = layout → a ≤ b →
      cond a els₀ n s.stop → At s b els 0 true [0] (rule :: above rule) → Within b els rule →
      (∀ c els' top seen, b ≤ c → At s c els' 1 false seen [] →
        top.transformed grammar .ast rule = { T with id := ident.getD "" } →
        Reads goal c els' (top :: parent :: outer) rest) →
      Reads goal b els (opening rule ident :: parent :: outer) (words ++ rest)) :
    Yields rule cond words T rest := by
  intro goal graph els top outer n ident stop hk hstop hstarted hcond hnext
  obtain ⟨expand, hexpand, htemplate⟩ := hlayout graph els n stop hcond
  have hlt : stop < graph.size := Graph.lt_size_of_isRuleEnd (by rw [hstop]; rfl)
  refine enters_body hk hlt hstarted hexpand htemplate fun b hle hat hwithin =>
    hbody (s := ⟨graph.size, layout, stop⟩) rfl hle hcond hat hwithin
      fun c els' node seen hle' hat htransformed => ?_
  have hkstop : c.kind stop = .ruleEnd rule ident := by
    rw [Graph.kind_of_le (le_trans hle hle') hlt, hstop]
  refine hat.leave hexit hkstop ?_
  rw [htransformed]
  refine hnext c _ ⟨le_trans hle hle', ⟨_, rfl⟩, ?_, ?_⟩
  · rw [visited_cons_none]
    refine List.forall_mem_cons.mpr ⟨.inl rfl, fun m hm => .inr ?_⟩
    rcases hat.visited m hm with ⟨hfalse, -⟩ | hle | ⟨j, -, rfl⟩
    · exact absurd hfalse Bool.false_ne_true
    · exact Nat.le_of_add_right_le hle
    · exact Nat.le_add_right _ _
  · rw [visited_cons_none]
    refine List.forall_mem_cons.mpr ⟨by rw [hkstop]; rfl, fun m hm => ?_⟩
    cases hstart : (c.kind m).startedRule? with
    | none => rfl
    | some r => exact absurd (hat.started m hm r hstart) nofun

namespace At

/-- A rule of the body yields the next words; behind it the path stands on its end. -/
theorem enters {cond : Graph → List PathElement → NodeId → NodeId → Prop} {m : Nat}
    (h : At s graph els i fresh seen rules) (hn : s.layout[n]? = some (.start rule ident m, []))
    (hm : s.layout[m]? = some (.close rule ident, links)) (hrules : ∀ r ∈ rules, r ∈ above rule)
    (hyields : Yields rule cond words T rest) (hcond : cond graph els (s.base + n) (s.base + m))
    (hnext : ∀ b els', graph ≤ b → At s b els' m false [m] [] →
      Reads goal b els' (top.addChild { T with id := ident.getD "" } :: outer) rest) :
    Enters goal graph (s.base + n) els (top :: outer) (words ++ rest) := by
  refine hyields _ _ _ _ _ _ _ _ (kind_of_holds h.holds hn) (kind_of_holds h.holds hm)
    (fun k hk r hr => hrules r (h.started k hk r hr)) hcond fun b els' hb => hnext b els' hb.le ?_
  obtain ⟨before, rfl⟩ := hb.tip
  refine ⟨h.holds.of_le hb.le, h.stop_lt, ⟨none, before, rfl⟩, fun k hk => ?_, fun k hk r hr => ?_⟩
  · rcases hb.visited k hk with rfl | hle
    · exact .inr (.inr ⟨m, List.mem_singleton_self m, rfl⟩)
    · refine .inr (.inl (le_trans ?_ hle))
      have hsize := h.holds.size_le
      rwa [Layout.size_graph] at hsize
  · rw [hb.started k hk] at hr
    exact absurd hr nofun

/-- The same along a route. -/
theorem call {cond : Graph → List PathElement → NodeId → NodeId → Prop} {m : Nat}
    (h : At s graph els i fresh seen rules) (words : List String) (path : List Nat) (n : Nat)
    (may : List Nat) (hmay : Admits may (words ++ rest).head?)
    (hclosed : closed = true → Shut graph (words ++ rest).head? s.stop)
    (hroutes : routes may closed s.layout i seen path = true)
    (hleads : leads may closed s.layout (path.getLastD i) n = true)
    (hseen : n ∉ path.reverse ++ seen) (hn : s.layout[n]? = some (.start rule ident m, []))
    (hm : s.layout[m]? = some (.close rule ident, links)) (hrules : ∀ r ∈ rules, r ∈ above rule)
    (hrule : rule ∉ rules) (hyields : Yields rule cond words T rest)
    (hcond : cond graph (along s.base path els) (s.base + n) (s.base + m))
    (hnext : ∀ b els', graph ≤ b → At s b els' m false [m] [] →
      Reads goal b els' (top.addChild { T with id := ident.getD "" } :: outer) rest) :
    Reads goal graph els (top :: outer) (words ++ rest) := by
  refine h.reads_of_routes hmay hclosed hroutes fun hat => ?_
  refine hat.reads_of_leads hmay hclosed hleads hseen hn
    (fun r hr => ?_) (hat.enters hn hm hrules hyields hcond hnext)
  obtain rfl := Option.some.inj hr
  exact hrule

end At

end GrammarGraph.Meta
