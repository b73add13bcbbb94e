import GrammarGraph.Proofs.Hooks

/-!
# The path that is found is a run of the grammar

* `Path.Legal`: the invariant of the search, for elements with the tip first and the token that is
  to follow.
* `Search.LegalRun`: what it comes to for a path that was found, in the order of the input.
* `Parser.Reaches.sound`: the invariant holds at the head of the loop.
-/

namespace GrammarGraph

namespace Graph

variable {a b graph : Graph} {g : Grammar} {id target n : NodeId} {ctx : Context}

/-- The target is among the successors of a node in a context, evaluated on an earlier stage of the
arena that has since grown beyond what they wired. -/
def Leads (graph : Graph) (g : Grammar) (id : NodeId) (ctx : Context) (target : NodeId) : Prop :=
  ∃ (a b : Graph) (next : List NodeId), a.successors g id ctx = (some next, b) ∧
    b ≤ graph ∧ target ∈ next

theorem Leads.of_le (h : a.Leads g id ctx target) (hle : a ≤ b) : b.Leads g id ctx target := by
  obtain ⟨c, d, next, hsucc, hd, hmem⟩ := h
  exact ⟨c, d, next, hsucc, le_trans hd hle, hmem⟩

/-- A later link leads on in any context. -/
theorem leads_of_mem_later (g : Grammar) (h : target ∈ graph.later id n) (ctx : Context) :
    graph.Leads g id ctx target := by
  obtain ⟨next, hsucc, hmem⟩ := exists_successors_of_mem_later h g ctx
  exact ⟨graph, graph, next, hsucc, le_refl graph, hmem⟩

/-- The node that was left had the kind that it has now. -/
theorem Leads.exists_leaves (h : graph.Leads g id ctx target) :
    ∃ (a b : Graph) (next : List NodeId), Leaves a g id ctx next b ∧ b ≤ graph ∧ target ∈ next ∧
      graph.kind id = a.kind id := by
  obtain ⟨a, b, next, hsucc, hle, hmem⟩ := h
  have hleaves := leaves_of_successors hsucc
  have hid : id < a.size := by
    by_contra hid
    have hk : a.kind id = .junction := kind_of_size_le (not_lt.mp hid)
    rw [successors_of_isPlain g (by rw [hk]; rfl), wired_of_size_le (not_lt.mp hid)] at hsucc
    obtain rfl : [] = next := Option.some.inj (Prod.mk.inj hsucc).1
    exact absurd hmem List.not_mem_nil
  exact ⟨a, b, next, hleaves, hle, hmem, kind_of_le (le_trans hleaves.le hle) hid⟩

/-- A gate that was passed held. -/
theorem Leads.gate {guard : Context → Bool} (h : graph.Leads g id ctx target)
    (hk : graph.kind id = .gate guard n) : guard ctx = true ∧ target = n := by
  obtain ⟨a, b, next, hleaves, -, hmem, hkind⟩ := h.exists_leaves
  rw [hkind] at hk
  cases hleaves with
  | gate hk' hguard =>
    obtain ⟨rfl, rfl⟩ := NodeKind.gate.inj (hk'.symm.trans hk)
    exact ⟨hguard, List.mem_singleton.mp hmem⟩
  | enter hk' => exact absurd (hk'.symm.trans hk) (by simp)
  | switch hk' => exact absurd (hk'.symm.trans hk) (by simp)
  | wired hk' =>
    rw [hk] at hk'
    exact absurd hk' (by simp [NodeKind.isPlain])

/-- A switch was left to the branch of the keyword. -/
theorem Leads.switch {branches : List (String × NodeId)} (h : graph.Leads g id ctx target)
    (hk : graph.kind id = .switch branches n) :
    ∃ key, ctx.keyword? = some key ∧ branches.lookup key = some target := by
  obtain ⟨a, b, next, hleaves, -, hmem, hkind⟩ := h.exists_leaves
  rw [hkind] at hk
  cases hleaves with
  | switch hk' =>
    obtain ⟨rfl, rfl⟩ := NodeKind.switch.inj (hk'.symm.trans hk)
    exact Option.bind_eq_some_iff.mp (Option.mem_toList.mp hmem)
  | enter hk' => exact absurd (hk'.symm.trans hk) (by simp)
  | gate hk' => exact absurd (hk'.symm.trans hk) (by simp)
  | wired hk' =>
    rw [hk] at hk'
    exact absurd hk' (by simp [NodeKind.isPlain])

/-- A rule start was left to the entry of the body that its rule gives in the context. -/
theorem Leads.enter {rule : RuleId} {ident : Option String} {stop : NodeId}
    (h : graph.Leads g id ctx target) (hk : graph.kind id = .ruleStart rule ident stop) :
    ∃ (expand : Context → Body) (base : Graph), g.expand? rule = some expand ∧
      (base.addBody (expand ctx) stop).1 = target ∧
      (base.addBody (expand ctx) stop).2 ≤ graph := by
  obtain ⟨a, b, next, hleaves, hle, hmem, hkind⟩ := h.exists_leaves
  rw [hkind] at hk
  cases hleaves with
  | enter hk' hexpand =>
    obtain ⟨rfl, rfl, rfl⟩ := NodeKind.ruleStart.inj (hk'.symm.trans hk)
    exact ⟨_, a, hexpand, (List.mem_singleton.mp hmem).symm, hle⟩
  | gate hk' => exact absurd (hk'.symm.trans hk) (by simp)
  | switch hk' => exact absurd (hk'.symm.trans hk) (by simp)
  | wired hk' =>
    rw [hk] at hk'
    exact absurd hk' (by simp [NodeKind.isPlain])

end Graph

namespace Path

variable {a b graph : Graph} {g : Grammar} {next : Option Token} {els els' : List PathElement}
  {e : PathElement} {pending pending' : List Token} {full : Bool}

/-- A slot has a token of its type, and any other element has none. -/
def Matched (graph : Graph) (e : PathElement) : Prop :=
  match graph.kind e.node with
  | .slot type _ _ => ∃ t, e.token = some t ∧ t.hasType type.id = true
  | _ => e.token = none

/-- Each element follows the one before it in the context of the path up to there,
rebuilt from scratch, and of the token to come; `next` is the one behind the tip.
Elements that were left are matched. -/
def Legal (graph : Graph) (g : Grammar) : Option Token → List PathElement → Prop
  | _, [] => False
  | _, [e] => e = ⟨Graph.root, none⟩
  | next, e :: parent :: rest =>
    graph.Leads g parent.node ⟨replay graph g (parent :: rest), e.token.or next⟩ e.node ∧
      Matched graph parent ∧ Legal graph g (e.token.or next) (parent :: rest)

theorem matched_of_le (h : a ≤ b) (he : e.node < a.size) (hm : Matched a e) : Matched b e := by
  unfold Matched at hm ⊢
  rwa [Graph.kind_of_le h he]

theorem Legal.of_le (h : a ≤ b) : ∀ {next : Option Token} {els : List PathElement},
    (∀ e ∈ els, e.node < a.size) → Legal a g next els → Legal b g next els
  | _, [], _, hl => hl
  | _, [_], _, hl => hl
  | next, e :: parent :: rest, hels, ⟨hleads, hmatched, hrest⟩ => by
    have hels' : ∀ e' ∈ parent :: rest, e'.node < a.size :=
      fun e' he' => hels e' (List.mem_cons_of_mem _ he')
    refine ⟨?_, matched_of_le h (hels' parent List.mem_cons_self) hmatched, hrest.of_le h hels'⟩
    rw [replay_of_le h hels']
    exact hleads.of_le h

/-- The tip is a slot that waits for its token, or matched as all other elements are. -/
def TipFits (graph : Graph) (els : List PathElement) : Prop :=
  ∀ e, els.head? = some e → e.token = none ∨ Matched graph e

/-- `next` can be the token that follows if these tokens are pending; any can if none is. -/
def Anticipates (pending : List Token) (next : Option Token) : Prop :=
  ∀ t, pending.head? = some t → next = some t

theorem anticipates_head? (pending : List Token) : Anticipates pending pending.head? := fun _ h => h

/-- The element behind the tip was left, and so is matched. -/
theorem Legal.tipFits_tail {rest : List PathElement} (h : Legal graph g next (e :: rest)) :
    TipFits graph rest := by
  cases rest with
  | nil => exact fun _ he => absurd he (by simp)
  | cons parent rest =>
    intro e' he'
    obtain rfl := Option.some.inj he'
    exact .inr h.2.1

/-- Replacing the tip by an alternative keeps the path legal. -/
theorem Legal.alternative {rest : List PathElement} {n : NodeId}
    (h : Legal graph g next (e :: rest)) (halt : graph.alternative? (e :: rest) = some n) :
    Legal graph g (e.token.or next) (⟨n, none⟩ :: rest) := by
  obtain ⟨parent, rest, rfl, hn⟩ := Search.exists_parent halt
  obtain ⟨-, hmatched, hrest⟩ := h
  exact ⟨Graph.leads_of_mem_later g hn _, hmatched, by simpa using hrest⟩

theorem Legal.parent {rest : List PathElement} (h : Legal graph g next (e :: rest))
    (hrest : rest ≠ []) : Legal graph g (e.token.or next) rest := by
  obtain ⟨parent, rest, rfl⟩ := List.exists_cons_of_ne_nil hrest
  exact h.2.2

end Path

namespace Search

open GrammarGraph.Path

variable {g : Grammar} {s s' : Search} {token next : Option Token} {graph : Graph} {full : Bool}
  {els els' : List PathElement} {e tip : PathElement} {pending pending' : List Token}

/-- The invariant of the search, given the pending tokens. -/
structure Sound (graph : Graph) (g : Grammar) (pending : List Token)
    (els : List PathElement) : Prop where
  legal : ∀ next, Anticipates pending next → Legal graph g next els
  fits : TipFits graph els

/-- A tip that does not wait for a token is matched. -/
theorem matched_of_expected? (ht : s.path.tip? = some tip) (he : s.expected? = none)
    (hfits : TipFits s.graph s.path.elements) : Matched s.graph tip := by
  rcases hfits tip ht with hnone | hmatched
  · rw [expected?, ht, Option.bind_some, hnone] at he
    unfold Matched
    cases hk : s.graph.kind tip.node with
    | slot type ident hook =>
      rw [hk] at he
      exact absurd he (by simp)
    | _ => exact hnone
  · exact hmatched

/-- The slot at the tip of a legal path takes a token of its type. -/
theorem legal_take {type : TokenType} {t : Token} (ht : s.path.tip? = some tip)
    (he : s.expected? = some type) (htype : t.hasType type.id = true) (hs : s.Valid g)
    (hl : Legal s.graph g (some t) s.path.elements) (next : Option Token) :
    Legal s.graph g next (s.pop.push g tip.node (some t)).path.elements ∧
      ∀ e, (s.pop.push g tip.node (some t)).path.elements.head? = some e → Matched s.graph e := by
  obtain ⟨rest, hels⟩ := exists_rest ht
  obtain ⟨hnone, ident, hook, hk⟩ := isSlot_of_expected? ht he
  rw [elements_push, elements_pop, hels, List.tail_cons]
  rw [hels] at hl
  constructor
  · cases rest with
    | nil =>
      -- The root is no slot.
      obtain rfl : tip = ⟨Graph.root, none⟩ := hl
      exact absurd (hs.kind_root.symm.trans hk) (by simp)
    | cons parent rest =>
      obtain ⟨hleads, hmatched, hrest⟩ := hl
      rw [hnone, Option.none_or] at hleads hrest
      exact ⟨hleads, hmatched, hrest⟩
  · intro e' he'
    obtain rfl := Option.some.inj he'
    unfold Matched
    rw [hk]
    exact ⟨t, rfl, htype⟩

/-- A step onto a successor of the tip keeps the path legal. -/
theorem legal_step {next : List NodeId} {n : NodeId} (ht : s.path.tip? = some tip)
    (he : s.expected? = none)
    (hsucc : s.graph.successors g tip.node ⟨s.path, token⟩ = (some next, graph)) (hn : n ∈ next)
    (hs : s.Valid g) (hr : s.IsReplay g) (hl : Legal s.graph g token s.path.elements)
    (hfits : TipFits s.graph s.path.elements) :
    Legal graph g token (push g { s with graph } n none).path.elements := by
  have hle := successors_le hsucc
  obtain ⟨rest, hels⟩ := exists_rest ht
  have hmatched :=
    matched_of_le hle (hs.lt_size tip (List.mem_of_head? ht)) (matched_of_expected? ht he hfits)
  have hl' := hl.of_le hle hs.lt_size
  have hreplay := hr.of_le hle hs.lt_size
  rw [IsReplay] at hreplay
  rw [elements_push]
  simp only at hreplay ⊢
  rw [hels] at hl' hreplay ⊢
  refine ⟨⟨s.graph, graph, _, ?_, le_refl graph, hn⟩, hmatched, hl'⟩
  rw [← hreplay]
  exact hsucc

/-- A descent makes a legal path longer, and all of it is matched.  Behind a token that was taken
any token can follow. -/
theorem Arrives.legal (h : Arrives g token s s') (hs : s.Valid g) (hr : s.IsReplay g)
    (hl : Legal s.graph g token s.path.elements) (hfits : TipFits s.graph s.path.elements)
    (next : Option Token) (hnext : token = none → next = none) :
    Legal s'.graph g next s'.path.elements ∧ ∀ e, s'.path.elements.head? = some e →
      Matched s'.graph e := by
  induction h with
  | @taken s tip type ht he hany =>
    obtain ⟨t, rfl, htype⟩ := (Option.any_eq_true _ _).mp hany
    exact legal_take ht he htype hs hl next
  | @complete s tip graph ht he hsucc hend =>
    rw [Bool.and_eq_true, Option.isNone_iff_eq_none] at hend
    obtain rfl := hend.1
    obtain rfl := hnext rfl
    have hle := successors_le hsucc
    refine ⟨hl.of_le hle hs.lt_size, ?_⟩
    intro e' he'
    obtain rfl : tip = e' := Option.some.inj (ht.symm.trans he')
    exact matched_of_le hle (hs.lt_size tip (List.mem_of_head? he'))
      (matched_of_expected? ht he hfits)
  | @step s s' tip graph before behind n ht he hsucc hbefore hn harrives ih =>
    have hle := successors_le hsucc
    have hmem : n ∈ before ++ n :: behind := List.mem_append_right _ List.mem_cons_self
    apply ih (hs.push hsucc hmem) ((hr.of_le hle hs.lt_size).push n none)
    · exact legal_step ht he hsucc hmem hs hr hl hfits
    · intro e' he'
      obtain rfl := Option.some.inj he'
      exact .inl rfl

/-- What follows once a token is pending again is that token or what followed it. -/
theorem exists_anticipates (h : Anticipates (token.toList ++ pending) next) :
    ∃ next', Anticipates pending next' ∧ token.or next' = next := by
  cases token with
  | none => exact ⟨next, h, rfl⟩
  | some t => exact ⟨pending.head?, anticipates_head? pending, (h t rfl).symm⟩

/-- Stepping back keeps the path legal for the tokens that are pending then. -/
theorem Retreats.sound (h : Retreats graph full els pending els' pending')
    (hs : Sound graph g pending els) : Sound graph g pending' els' := by
  induction h with
  | switch halt =>
    constructor
    · intro next h
      obtain ⟨next', hnext', rfl⟩ := exists_anticipates h
      exact (hs.legal next' hnext').alternative halt
    · intro e' he'
      obtain rfl := Option.some.inj he'
      exact .inl rfl
  | back _ _ hrest ih =>
    refine ih ⟨fun next h => ?_, (hs.legal _ (anticipates_head? _)).tipFits_tail⟩
    obtain ⟨next', hnext', rfl⟩ := exists_anticipates h
    exact (hs.legal next' hnext').parent hrest.ne_nil

theorem sound_start (g : Grammar) : Sound (start g).graph g [] (start g).path.elements where
  legal _ _ := rfl
  fits e he := by
    obtain rfl := Option.some.inj he
    exact .inl rfl

/-! ## Legal runs -/

/-- What is seen where a path is left for the rest of it: the path up to there, rebuilt from
scratch, and the first token on the rest, if there is one. -/
def contextAt (graph : Graph) (g : Grammar) (upTo rest : List PathElement) : Context :=
  ⟨replay graph g upTo.reverse, rest.findSome? (·.token)⟩

/-- The path of a search is a run of the grammar over the arena of the search. -/
structure LegalRun (g : Grammar) (s : Search) : Prop where
  /-- The path starts at the start of the root rule. -/
  start : s.path.toList.head? = some ⟨Graph.root, none⟩ ∧
    s.graph.kind Graph.root = .ruleStart g.root g.ident 0
  /-- Replaying the steps from scratch gives the path. -/
  replay : s.path = .replay s.graph g s.path.elements
  /-- Each node is among the successors of the one before it. -/
  follows : ∀ before e e' behind, s.path.toList = before ++ e :: e' :: behind →
    s.graph.Leads g e.node (contextAt s.graph g (before ++ [e]) (e' :: behind)) e'.node
  /-- Every gate on the path was passed while its guard held. -/
  gate : ∀ before e e' behind, s.path.toList = before ++ e :: e' :: behind →
    ∀ guard target, s.graph.kind e.node = .gate guard target →
      guard (contextAt s.graph g (before ++ [e]) (e' :: behind)) = true ∧ e'.node = target
  /-- Every switch on the path was left to the branch of the keyword of the next token. -/
  switch : ∀ before e e' behind, s.path.toList = before ++ e :: e' :: behind →
    ∀ branches target, s.graph.kind e.node = .switch branches target →
      ∃ t key, (e' :: behind).findSome? (·.token) = some t ∧ t.keyword? = some key ∧
        branches.lookup key = some e'.node
  /-- Every rule start on the path was left to the entry of the body that the
  rule gives in the context. -/
  enter : ∀ before e e' behind, s.path.toList = before ++ e :: e' :: behind →
    ∀ rule ident stop, s.graph.kind e.node = .ruleStart rule ident stop →
      ∃ (expand : Context → Body) (base : Graph), g.expand? rule = some expand ∧
        (base.addBody (expand (contextAt s.graph g (before ++ [e]) (e' :: behind))) stop).1 =
          e'.node ∧
        (base.addBody (expand (contextAt s.graph g (before ++ [e]) (e' :: behind))) stop).2 ≤
          s.graph
  /-- Every slot on the path has a token of its type. -/
  slot : ∀ e ∈ s.path.toList, ∀ type ident hook, s.graph.kind e.node = .slot type ident hook →
    ∃ t, e.token = some t ∧ t.hasType type.id = true
  /-- No other element has a token. -/
  other : ∀ e ∈ s.path.toList, (s.graph.kind e.node).isSlot = false → e.token = none

theorem findSome?_token_append (behind : List PathElement) :
    ((behind ++ [e]).findSome? (·.token)).or next =
      (behind.findSome? (·.token)).or (e.token.or next) := by
  rw [List.findSome?_append, Option.or_assoc]
  simp

/-- Anywhere on a legal path the next element follows in the context of the rest of the path. -/
theorem follows_of_legal {e' : PathElement} {before : List PathElement} :
    ∀ {behind : List PathElement}
    {next : Option Token}, Legal graph g next (behind.reverse ++ e' :: e :: before) →
      graph.Leads g e.node ⟨replay graph g (e :: before),
        ((e' :: behind).findSome? (·.token)).or next⟩ e'.node := by
  intro behind
  induction behind using List.reverseRecOn with
  | nil =>
    intro next h
    simpa using h.1
  | append_singleton behind last ih =>
    intro next h
    rw [List.reverse_append, List.reverse_singleton, List.singleton_append, List.cons_append] at h
    rw [← List.cons_append, findSome?_token_append]
    exact ih (h.parent (List.append_ne_nil_of_right_ne_nil _ (List.cons_ne_nil _ _)))

theorem matched_of_legal :
    ∀ {next : Option Token} {els : List PathElement}, Legal graph g next els →
    (∀ e, els.head? = some e → Matched graph e) → ∀ e ∈ els, Matched graph e
  | _, [], _, _, _, he => absurd he List.not_mem_nil
  | _, [e], _, htip, e', he => by
    obtain rfl := List.mem_singleton.mp he
    exact htip e' rfl
  | _, e :: parent :: rest, ⟨_, hmatched, hrest⟩, htip, e', he => by
    rcases List.mem_cons.mp he with rfl | he
    · exact htip e' rfl
    · refine matched_of_legal hrest (fun e'' he'' => ?_) e' he
      obtain rfl := Option.some.inj he''
      exact hmatched

theorem legalRun_of_legal (hs : s.Valid g) (hr : s.IsReplay g)
    (hl : Legal s.graph g none s.path.elements)
    (htip : ∀ e, s.path.elements.head? = some e → Matched s.graph e) : s.LegalRun g := by
  have hmatched : ∀ e ∈ s.path.toList, Matched s.graph e := fun e he =>
    matched_of_legal hl htip e (List.mem_reverse.mp he)
  have hfollows : ∀ before e e' behind, s.path.toList = before ++ e :: e' :: behind →
      s.graph.Leads g e.node (contextAt s.graph g (before ++ [e]) (e' :: behind)) e'.node := by
    intro before e e' behind hpath
    have hels : s.path.elements = behind.reverse ++ e' :: e :: before.reverse := by
      rw [← List.reverse_reverse s.path.elements, ← Path.toList, hpath]
      simp
    rw [hels] at hl
    have hleads := follows_of_legal hl
    rw [Option.or_none] at hleads
    rw [contextAt, List.reverse_append, List.reverse_singleton, List.singleton_append]
    exact hleads
  refine ⟨⟨?_, hs.kind_root⟩, hr, hfollows, ?_, ?_, ?_, ?_, ?_⟩
  · rw [Path.toList, List.head?_reverse]
    exact hs.root
  · intro before e e' behind hpath guard target hk
    exact (hfollows before e e' behind hpath).gate hk
  · intro before e e' behind hpath branches target hk
    obtain ⟨key, hkey, hbranch⟩ := (hfollows before e e' behind hpath).switch hk
    obtain ⟨t, ht, hkey⟩ := Option.bind_eq_some_iff.mp hkey
    exact ⟨t, key, ht, hkey, hbranch⟩
  · intro before e e' behind hpath rule ident stop hk
    exact (hfollows before e e' behind hpath).enter hk
  · intro e he type ident hook hk
    have he := hmatched e he
    unfold Matched at he
    rwa [hk] at he
  · intro e he hk
    have he := hmatched e he
    unfold Matched at he
    split at he
    · next hslot =>
      rw [hslot] at hk
      exact absurd hk (by simp [NodeKind.isSlot])
    · exact he

end Search

theorem Run.Goes.sound {g : Grammar} {full : Bool} {r r' : Run} (h : Goes g full r r')
    (hs : r.search.Valid g) (hr : r.search.IsReplay g)
    (h' : Search.Sound r.search.graph g r.pending r.search.path.elements) :
    Search.Sound r'.search.graph g r'.pending r'.search.path.elements := by
  cases h with
  | taken hpending harrives =>
    have hl := h'.legal _ (Path.anticipates_head? _)
    rw [hpending, List.head?_cons] at hl
    have key := fun next => harrives.legal hs hr hl h'.fits next nofun
    exact ⟨fun next _ => (key next).1, fun e he => .inr ((key none).2 e he)⟩
  | retreated _ hback =>
    obtain ⟨hgraph, hretreats, -⟩ := Search.backtrack_true hs.two_le hback
    simp only [hgraph]
    exact hretreats.sound h'

theorem Run.sound_fetch {g : Grammar} {lx : Lexer} {r r' : Run} (hf : r.fetch lx = .ok r')
    (h : Search.Sound r.search.graph g r.pending r.search.path.elements) :
    Search.Sound r'.search.graph g r'.pending r'.search.path.elements := by
  rcases fetch_ok hf with ⟨-, rfl⟩ | ⟨hp, o, stream, -, rfl⟩
  · exact h
  · refine ⟨fun next _ => h.legal next fun t ht => ?_, h.fits⟩
    rw [hp] at ht
    exact absurd ht (by simp)

namespace Parser

variable {p : Parser} {text : List Char} {source : Option String} {r : Run}

theorem Reaches.sound (hooks : p.HooksRevert text source) (h : p.Reaches text source r) :
    Search.Sound r.search.graph p.grammar r.pending r.search.path.elements := by
  refine h.induct (P := fun r => Search.Sound r.search.graph p.grammar r.pending
    r.search.path.elements) (Search.sound_start p.grammar) ?_
  intro r t r' hr ih hf hgoes
  have hs := hr.valid
  have hreplay := hr.isReplay hooks
  rw [← Run.search_fetch hf] at hs hreplay
  exact hgoes.sound hs hreplay (Run.sound_fetch hf ih)

/-- The path of a search that succeeds is legal, and all of it is matched. -/
theorem legal_of_searchWithin {fuel : Nat} {s : Search} (hooks : p.HooksRevert text source)
    (h : p.searchWithin fuel text source = some (.ok s)) :
    s.Valid p.grammar ∧ s.IsReplay p.grammar ∧ Path.Legal s.graph p.grammar none s.path.elements ∧
      ∀ e, s.path.elements.head? = some e → Path.Matched s.graph e := by
  obtain ⟨r, hr, hstep⟩ := exists_done h
  obtain ⟨t, hf, hpending, harrives⟩ := Run.arrives_of_step hr.valid.two_le hstep
  have hs := hr.valid
  have hreplay := hr.isReplay hooks
  have hsound := Run.sound_fetch hf (hr.sound hooks)
  rw [← Run.search_fetch hf] at hs hreplay
  have hl := hsound.legal none fun u hu => by
    rw [hpending] at hu
    exact absurd hu (by simp)
  have key := harrives.legal hs hreplay hl hsound.fits none fun _ => rfl
  exact ⟨harrives.valid hs, harrives.isReplay hs hreplay, key⟩

/-- The path of a search that succeeds is a legal run of the grammar. -/
theorem legalRun_of_searchWithin {fuel : Nat} {s : Search} (hooks : p.HooksRevert text source)
    (h : p.searchWithin fuel text source = some (.ok s)) : s.LegalRun p.grammar := by
  obtain ⟨hvalid, hreplay, hlegal, htip⟩ := legal_of_searchWithin hooks h
  exact Search.legalRun_of_legal hvalid hreplay hlegal htip

/-- The search steps back over a rule and over a slot with a hook before it succeeds. -/
theorem legalRun_twoStatements :
    Sample.Commands.twoStatements.HooksRevert Sample.Commands.twoStatementsText none ∧
      ∃ s, Sample.Commands.twoStatements.searchWithin 100 Sample.Commands.twoStatementsText none =
        some (.ok s) ∧ s.LegalRun Sample.Commands.twoStatements.grammar := by
  have hok : (Sample.Commands.twoStatements.searchWithin 100 Sample.Commands.twoStatementsText
      none).any (·.isOk) = true := by decide +kernel
  obtain ⟨result, hsearch, hresult⟩ := (Option.any_eq_true _ _).mp hok
  cases result with
  | error e => exact absurd hresult (by simp [Except.isOk, Except.toBool])
  | ok s =>
    have hooks := Sample.Commands.hooksRevert_twoStatements
    exact ⟨hooks, s, hsearch, legalRun_of_searchWithin hooks hsearch⟩

end Parser

end GrammarGraph
