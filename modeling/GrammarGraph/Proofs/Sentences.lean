import GrammarGraph.Proofs.Derivations
import GrammarGraph.Proofs.Languages
import GrammarGraph.Proofs.Soundness

/-!
# Derivations of a grammar

Between the start of an instance and its end the path of a successful search walks through a body
that was wired for the rule (`Graph.Allows`, `Parser.allows_of_searchWithin`).  In a regular grammar
the body of a rule is one regular piece, whatever the context.  An instance of the rule derives what
a word of the piece's expression stands for: a token of the type for each slot, and an instance for
each reference (`Grammar.Generates`).  So what the path of a successful search derives is such a
derivation (`Parser.generates_of_searchWithin`).
-/

namespace GrammarGraph

namespace Derivation

/-- What the body around it passes. -/
def label : Derivation → Label
  | leaf type ident _ => .token type ident
  | node rule ident _ => .rule rule ident

mutual

def tokens : Derivation → List Token
  | leaf _ _ token => [token]
  | node _ _ children => tokensOfAll children

def tokensOfAll : List Derivation → List Token
  | [] => []
  | d :: ds => tokens d ++ tokensOfAll ds

end

mutual

theorem tokens_parseTree (g : Grammar) : ∀ d : Derivation, (d.parseTree g).tokens = d.tokens
  | leaf _ _ _ => rfl
  | node _ _ children => by
    rw [parseTree, tokens, Tree.tokens, Option.toList_none, List.nil_append,
      tokensOfAll_parseTrees g children]

theorem tokensOfAll_parseTrees (g : Grammar) : ∀ ds : List Derivation,
    Tree.tokensOfAll (parseTrees g ds) = tokensOfAll ds
  | [] => rfl
  | d :: ds => by
    rw [parseTrees, tokensOfAll, Tree.tokensOfAll, tokens_parseTree g d,
        tokensOfAll_parseTrees g ds]

end

end Derivation

namespace Grammar

/-- The body of each rule is a regular piece, whatever the context. -/
def Regular (g : Grammar) : Prop :=
  ∀ rule expand, g.expand? rule = some expand → ∃ p : Piece, p.Regular ∧
    expand = fun _ => .ofPiece p

theorem Regular.endsApart {g : Grammar} (h : g.Regular) : g.EndsApart := by
  intro rule expand hexpand ctx
  obtain ⟨p, hp, rfl⟩ := h rule expand hexpand
  exact Body.endsApart_ofPiece (p.atSockets_of_regular hp)

/-- The derivations of a grammar. -/
inductive Generates (g : Grammar) : Derivation → Prop
  /-- A slot takes a token of its type. -/
  | leaf {type : TokenType} {ident : Option String} {token : Token} : token.hasType type.id = true →
      Generates g (.leaf type ident token)
  /-- What an instance derives is a word of the rule's body. -/
  | node {rule : RuleId} {ident : Option String} {ds : List Derivation} {p : Piece} :
      g.expand? rule = some (fun _ => .ofPiece p) → ds.map (·.label) ∈ p.expr.matches' →
      (∀ d ∈ ds, Generates g d) → Generates g (.node rule ident ds)

end Grammar

/-- The derivations that are found in an arena: an instance of a rule walks through a body that was
wired for the rule in some context, and the slots take tokens with the property. -/
inductive Graph.Allows (graph : Graph) (g : Grammar)
    (P : TokenType → Option String → Token → Prop) : Derivation → Prop
  | leaf {type : TokenType} {ident : Option String} {token : Token} : P type ident token →
      Allows graph g P (.leaf type ident token)
  | node {rule : RuleId} {ident : Option String} {ds : List Derivation} {expand : Context → Body}
      {ctx : Context} {base : Graph} {stop : NodeId} {N : ℕ} : g.expand? rule = some expand →
      (base.addBody (expand ctx) stop).2 ≤ graph → stop < base.size →
      graph.Walk stop base.size N (ds.map (·.label)) → (∀ d ∈ ds, Allows graph g P d) →
      Allows graph g P (.node rule ident ds)

/-- What regular bodies allow is generated. -/
theorem Graph.Allows.generates {graph : Graph} {g : Grammar} (hg : g.Regular) {d : Derivation}
    (h : graph.Allows g (fun type _ token => token.hasType type.id = true) d) : g.Generates d := by
  induction h with
  | leaf htype => exact .leaf htype
  | node hexpand hle hlt hwalk _ ih =>
    obtain ⟨p, hp, rfl⟩ := hg _ _ hexpand
    exact .node hexpand (((Graph.bodyOf_addBody hp hle).exists_walk_iff hlt).mp ⟨_, hwalk⟩) ih

namespace Path

variable {graph : Graph} {g : Grammar} {els : List PathElement} {ds : List Derivation}
  {e z : PathElement} {lo hi n m stop : NodeId}

/-- The second node is among the successors of the first one.  The end of an instance lies in front
of the body that is wired for it. -/
structure Follows (graph : Graph) (g : Grammar) (n m : NodeId) : Prop where
  leads : ∃ ctx, graph.Leads g n ctx m
  stop_lt : ∀ rule ident stop, graph.kind n = .ruleStart rule ident stop → stop < m

theorem Follows.mem_targets (h : Follows graph g n m) (hk : (graph.kind n).startedRule? = none) :
    m ∈ graph.targets n := by
  obtain ⟨ctx, hleads⟩ := h.leads
  obtain ⟨a, b, next, hleaves, hle, hmem, hkind⟩ := hleads.exists_leaves
  rcases hleaves.mem_targets_or_entry hmem with ⟨hmem, rfl⟩ | ⟨-, rule, ident, stop, hk', -⟩
  · rwa [Graph.targets_of_le hle (Graph.lt_size_of_mem_targets hmem)]
  · rw [hkind, hk'] at hk
    exact absurd hk nofun

/-- What a slot takes has the property. -/
def Takes (graph : Graph) (P : TokenType → Option String → Token → Prop) (e : PathElement) : Prop :=
  ∀ type ident hook token, graph.kind e.node = .slot type ident hook → e.token = some token →
    P type ident token

theorem Matched.takes (h : Matched graph e) :
    Takes graph (fun type _ token => token.hasType type.id = true) e := by
  intro type ident hook token hk htoken
  unfold Matched at h
  simp only [hk] at h
  obtain ⟨t, ht, htype⟩ := h
  obtain rfl := Option.some.inj (htoken.symm.trans ht)
  exact htype

theorem Legal.isChain : ∀ {next : Option Token} {els : List PathElement} {frames : List Frame},
    Legal graph g next els →
    Placed graph g els frames → els.IsChain fun e' e => Follows graph g e.node e'.node
  | _, [], _, _, _ => .nil
  | _, [_], _, _, _ => .singleton _
  | next, e' :: e :: rest, frames, h, hplaced => by
    obtain ⟨hleads, -, hrest⟩ := h
    obtain ⟨frames', hrest'⟩ := hplaced.pop (List.cons_ne_nil _ _)
    refine .cons_cons ⟨⟨_, hleads⟩, fun rule ident stop hk => ?_⟩ (hrest.isChain hrest')
    cases hplaced with
    | inside _ htargets | leave _ htargets =>
      rw [Graph.targets, hk] at htargets
      exact absurd htargets List.not_mem_nil
    | enter _ hk' _ hnested =>
      obtain ⟨rfl, rfl, rfl⟩ := NodeKind.ruleStart.inj (hk'.symm.trans hk)
      cases hnested with
      | cons hnested _ _ hbehind hstop => exact lt_of_lt_of_le hstop.2 hbehind

namespace Derives

/-- No instance around the elements ends with the first of them. -/
theorem isRuleEnd_head (h : Derives graph els ds) (he : e ∈ els.head?) :
    (graph.kind e.node).isRuleEnd = false := by
  cases h with
  | nil => exact absurd he nofun
  | taken hk =>
    obtain rfl := Option.some.inj he
    rw [hk]
    rfl
  | passed _ hend =>
    obtain rfl := Option.some.inj he
    exact hend
  | nested hstart =>
    obtain rfl := Option.some.inj he
    rw [hstart]
    rfl

/-- What follows a node of a body is in the body, too, unless the instance ends there. -/
theorem onward_of_follows (hregion : graph.Region lo hi stop)
    (hstop : (graph.kind stop).isRuleEnd = true) (h : Derives graph els ds) (hn : lo ≤ n ∧ n < hi)
    (hk : (graph.kind n).startedRule? = none)
    (hfollows : ∀ e ∈ (els ++ [z]).head?, Follows graph g n e.node) :
    (∀ e ∈ (els ++ [z]).head?, e.node ∈ graph.onward n) ∧ ∀ e ∈ els.head?, lo ≤ e.node ∧
      e.node < hi := by
  have htargets := fun e he => (hfollows e he).mem_targets hk
  constructor
  · intro e he
    unfold Graph.onward
    split
    · next hk' =>
      rw [hk'] at hk
      exact absurd hk nofun
    · exact htargets e he
  · intro e he
    have hmem := htargets e (by rw [List.head?_append, he]; rfl)
    rcases hregion.targets n hn.1 hn.2 _ hmem with heq | ⟨hle, hlt⟩
    · rw [← heq, h.isRuleEnd_head he] at hstop
      exact absurd hstop nofun
    · exact ⟨hle, hlt⟩

/-- A walk from what follows a node is a walk from the node. -/
theorem exists_hop {w : List Label} (hn : stop ≠ n)
    (honward : ∀ e ∈ (els ++ [z]).head?, e.node ∈ graph.onward n)
    (hrest : ∀ e ∈ (els ++ [z]).head?, ∃ N, graph.Walk stop e.node N w) :
    ∃ N, graph.Walk stop n N ((graph.kind n).labels ++ w) := by
  obtain ⟨e, he⟩ : ∃ e, e ∈ (els ++ [z]).head? := by cases els <;> exact ⟨_, rfl⟩
  obtain ⟨N, hwalk⟩ := hrest e he
  exact ⟨_, hwalk.hop hn (honward e he)⟩

/-- Elements within a body are a walk through it, which can be put in front of another walk. -/
theorem exists_walk (hregion : graph.Region lo hi stop) (hlo : stop < lo)
    (hstop : (graph.kind stop).isRuleEnd = true) {M : ℕ} {w : List Label}
    (hwalk : graph.Walk stop z.node M w) (h : Derives graph els ds) : (∀ e ∈ els, Matched graph e) →
      (els ++ [z]).IsChain (fun e e' => Follows graph g e.node e'.node) →
    (∀ e ∈ els.head?, lo ≤ e.node ∧ e.node < hi) →
    ∀ e ∈ (els ++ [z]).head?, ∃ N, graph.Walk stop e.node N (ds.map (·.label) ++ w) := by
  have hne : ∀ {n}, lo ≤ n → stop ≠ n := fun hn => Nat.ne_of_lt (lt_of_lt_of_le hlo hn)
  induction h with
  | nil =>
    intro _ _ _ e he
    obtain rfl := Option.some.inj he
    exact ⟨M, hwalk⟩
  | @taken n token type ident hook els ds hk hels ih =>
    intro hmatched hchain hhead e he
    obtain rfl := Option.some.inj he
    obtain ⟨hfollows, hrest⟩ := List.isChain_cons.mp hchain
    have hn := hhead _ rfl
    obtain ⟨honward, hels⟩ := hels.onward_of_follows hregion hstop hn (by rw [hk]; rfl) hfollows
    have hhop := exists_hop (hne hn.1) honward
      (ih (fun e he => hmatched e (List.mem_cons_of_mem _ he)) hrest hels)
    rwa [hk] at hhop
  | @passed n els ds hstart hend hels ih =>
    intro hmatched hchain hhead e he
    obtain rfl := Option.some.inj he
    obtain ⟨hfollows, hrest⟩ := List.isChain_cons.mp hchain
    have hn := hhead _ rfl
    obtain ⟨honward, hels⟩ := hels.onward_of_follows hregion hstop hn hstart hfollows
    have hhop := exists_hop (hne hn.1) honward
      (ih (fun e he => hmatched e (List.mem_cons_of_mem _ he)) hrest hels)
    have hlabels : (graph.kind n).labels = [] := by
      have hmatch := hmatched _ List.mem_cons_self
      unfold Matched at hmatch
      cases hk : graph.kind n with
      | ruleStart => rw [hk] at hstart; exact absurd hstart nofun
      | slot =>
        -- A slot on the path has a token.
        simp only [hk] at hmatch
        exact absurd hmatch nofun
      | ruleEnd | junction | gate | switch => rfl
    rwa [hlabels] at hhop
  | @nested start stop' rule ident ident' inner els ds ds' hstart hstop' _ hels _ ih =>
    intro hmatched hchain hhead e he
    obtain rfl := Option.some.inj he
    have hn := hhead _ rfl
    rw [List.append_assoc] at hchain
    obtain ⟨hfollows, hrest⟩ := List.isChain_cons.mp (List.isChain_split.mp hchain).2
    obtain ⟨hle, hlt, -⟩ := hregion.stops start rule ident stop' hn.1 hn.2 hstart
    obtain ⟨honward, hels⟩ :=
      hels.onward_of_follows hregion hstop ⟨hle, hlt⟩ (by rw [hstop']; rfl) hfollows
    obtain ⟨N, hwalk'⟩ :=
      exists_hop (hne hle) honward (ih (fun e he => hmatched e (by simp [he])) hrest hels)
    have hhop :=
      hwalk'.hop (hne hn.1) (by rw [Graph.onward, hstart]; exact List.mem_singleton_self _)
    rw [hstart, hstop'] at hhop
    exact ⟨_, hhop⟩

/-- What lies between the start of an instance and its end is found in the arena. -/
theorem allows {P : TokenType → Option String → Token → Prop} (h : Derives graph els ds) :
    (∀ e ∈ els, Matched graph e) → (∀ e ∈ els, Takes graph P e) →
    els.IsChain (fun e e' => Follows graph g e.node e'.node) → ∀ d ∈ ds, graph.Allows g P d := by
  induction h with
  | nil => exact fun _ _ _ d hd => absurd hd List.not_mem_nil
  | @taken n token type ident hook els ds hk hels ih =>
    intro hmatched htakes hchain
    exact List.forall_mem_cons.mpr
      ⟨.leaf (htakes _ List.mem_cons_self type ident hook token hk rfl),
      ih (fun e he => hmatched e (List.mem_cons_of_mem _ he))
      (fun e he => htakes e (List.mem_cons_of_mem _ he)) (List.isChain_cons.mp hchain).2⟩
  | passed _ _ _ ih =>
    intro hmatched htakes hchain
    exact ih (fun e he => hmatched e (List.mem_cons_of_mem _ he))
      (fun e he => htakes e (List.mem_cons_of_mem _ he)) (List.isChain_cons.mp hchain).2
  | @nested start stop rule ident ident' inner els ds ds' hstart hstop hinner _ ihinner ih =>
    intro hmatched htakes hchain
    obtain ⟨hbody, hbehind⟩ := List.isChain_split.mp hchain
    obtain ⟨hfollows, hinside⟩ := List.isChain_cons.mp hbody
    have hmatched' : ∀ e ∈ inner, Matched graph e := fun e he => hmatched e (by simp [he])
    have hds :=
      ihinner hmatched' (fun e he => htakes e (by simp [he])) (List.isChain_append.mp hinside).1
    refine List.forall_mem_cons.mpr ⟨?_, ih (fun e he => hmatched e (by simp [he]))
      (fun e he => htakes e (by simp [he])) (List.isChain_cons.mp hbehind).2⟩
    obtain ⟨first, hfirst⟩ : ∃ e, e ∈ (inner ++ [(⟨stop, none⟩ : PathElement)]).head? := by
      cases inner <;> exact ⟨_, rfl⟩
    obtain ⟨ctx, hleads⟩ := (hfollows first hfirst).leads
    obtain ⟨expand, base, hexpand, hentry, hle⟩ := hleads.enter hstart
    have hlt := (hfollows first hfirst).stop_lt rule ident stop hstart
    rw [← hentry] at hlt
    have hregion := (Graph.addBody_hasBody base (expand ctx) stop).region.of_le hle
    -- The path enters the body at its entry.
    have hbounds : ∀ e ∈ inner.head?, base.size ≤ e.node ∧
        e.node < (base.addBody (expand ctx) stop).2.size := by
      intro e he
      rw [List.head?_append, he] at hfirst
      obtain rfl := Option.some.inj hfirst
      rw [← hentry]
      exact ⟨le_refl _, hregion.lt⟩
    obtain ⟨N, hwalk⟩ := hinner.exists_walk hregion hlt (by rw [hstop]; rfl) .done hmatched' hinside
      hbounds first hfirst
    rw [List.append_nil, ← hentry] at hwalk
    exact .node hexpand hle hlt hwalk hds

theorem tokens_eq (h : Derives graph els ds) :
    els.filterMap (·.token) = Derivation.tokensOfAll ds := by
  induction h with
  | nil => rfl
  | taken _ _ ih => rw [List.filterMap_cons, ih]; rfl
  | passed _ _ _ ih => rw [List.filterMap_cons, ih]
  | nested _ _ _ _ ihinner ih =>
    rw [List.filterMap_append, List.filterMap_cons, List.filterMap_cons, ihinner, ih]
    rfl

end Derives

end Path

theorem Graph.regular_ofGrammar (g : Grammar) : (Graph.ofGrammar g).Regular := by
  intro id
  match id with
  | 0 | 1 => trivial
  | n + 2 => rw [kind_of_size_le (Nat.le_add_left 2 n)]; trivial

theorem Graph.Leaves.regular {a b : Graph} {g : Grammar} {id : NodeId} {ctx : Context}
    {next : List NodeId} (h : a.Leaves g id ctx next b) (hg : g.Regular) (ha : a.Regular) :
    b.Regular := by
  cases h with
  | enter _ hexpand =>
    obtain ⟨piece, hpiece, rfl⟩ := hg _ _ hexpand
    exact Piece.regular_addBody _ hpiece ha
  | gate | switch | wired => exact ha

theorem Path.reversible_of_regular {graph : Graph} {g : Grammar} (h : graph.Regular) :
    ∀ els : List PathElement, Path.Reversible graph g els
  | [] => trivial
  | e :: els => by
    refine ⟨?_, reversible_of_regular h els⟩
    unfold Path.Reverts
    split
    · next hk _ _ =>
      have hook := h e.node
      rw [hk] at hook
      cases hook
    · trivial

namespace Parser

variable {p : Parser} {text : List Char} {source : Option String} {fuel : Nat} {s : Search}

theorem hooksRevert_of_regular (hg : p.grammar.Regular) : p.HooksRevert text source := by
  intro r hr
  refine Path.reversible_of_regular (hr.arena (P := Graph.Regular) (Graph.regular_ofGrammar _) ?_) _
  exact fun _ _ _ _ _ hleaves _ ha => hleaves.regular hg ha

/-- A search that succeeds finds a derivation in its arena. -/
theorem allows_of_searchWithin (hg : p.grammar.EndsApart) (hooks : p.HooksRevert text source)
    (h : p.searchWithin fuel text source = some (.ok s))
    (htip : s.path.tip?.map (·.node) = some Graph.rootEnd)
    {P : TokenType → Option String → Token → Prop}
    (htakes : ∀ e ∈ s.path.elements, Path.Takes s.graph P e) :
    ∃ ds, s.graph.Allows p.grammar P (.node p.grammar.root p.grammar.ident ds) ∧
      (Derivation.node p.grammar.root p.grammar.ident ds).tokens = s.path.tokens ∧
      p.treeOf s = (Derivation.node p.grammar.root p.grammar.ident ds).tree p.grammar p.tree := by
  obtain ⟨hvalid, -, hlegal, htipmatched⟩ := legal_of_searchWithin hooks h
  obtain ⟨frames, hplaced⟩ := placed_of_searchWithin hg h
  obtain ⟨inner, ds, hpath, hds⟩ := (complete_of_searchWithin hg h htip).exists_derives
  have hwhole :=
    Path.Derives.nested (Graph.kind_root hvalid.base) (Graph.kind_rootEnd hvalid.base) hds .nil
  rw [← hpath] at hwhole
  have hmatched := fun e he => Search.matched_of_legal hlegal htipmatched e (List.mem_reverse.mp he)
  have hchain := List.isChain_reverse.mpr (hlegal.isChain hplaced)
  refine ⟨ds, hwhole.allows hmatched (fun e he => htakes e (List.mem_reverse.mp he)) hchain
    _ (List.mem_singleton_self _), ?_, hds.reduce hvalid.base hpath p.tree⟩
  rw [Path.tokens, Path.toList, hwhole.tokens_eq, Derivation.tokensOfAll, Derivation.tokensOfAll,
    List.append_nil]

/-- A search that succeeds in a regular grammar finds a derivation of the grammar. -/
theorem generates_of_searchWithin (hg : p.grammar.Regular)
    (h : p.searchWithin fuel text source = some (.ok s))
    (htip : s.path.tip?.map (·.node) = some Graph.rootEnd) :
    ∃ ds, p.grammar.Generates (.node p.grammar.root p.grammar.ident ds) ∧
      (Derivation.node p.grammar.root p.grammar.ident ds).tokens = s.path.tokens ∧
      p.treeOf s = (Derivation.node p.grammar.root p.grammar.ident ds).tree p.grammar p.tree := by
  have hooks : p.HooksRevert text source := hooksRevert_of_regular hg
  obtain ⟨-, -, hlegal, htipmatched⟩ := legal_of_searchWithin hooks h
  obtain ⟨ds, hallows, htokens, htree⟩ :=
    allows_of_searchWithin hg.endsApart hooks h htip fun e he =>
    (Search.matched_of_legal hlegal htipmatched e he).takes
  exact ⟨ds, hallows.generates hg, htokens, htree⟩

end Parser

end GrammarGraph
