import GrammarGraph.Proofs.Exhaustive
import GrammarGraph.Proofs.Sentences

/-!
# Searches told step by step

What a search comes to can be told from where it stands: the descent for the next token arrives, and
the search succeeds from there, or the descent fails, and the search succeeds from where it steps
back to (`Search.Succeeds`).  `Search.Proceeds` tells the same in the middle of a descent.  A search
that succeeds gives its answer from some bound on (`Parser.searchWithin_of_succeeds`).
-/

namespace GrammarGraph

namespace Search

variable {g : Grammar} {full : Bool} {P : Search → Prop} {s s' : Search} {token : Option Token}
  {n : NodeId} {ns : List NodeId} {levels : Nat} {els els' : List PathElement}
  {pending pending' : List Token} {a b graph : Graph}

/-! ## Enough levels -/

/-- With more levels the bound that suffices for each of some nodes suffices for all. -/
theorem exists_bound_of_forall {Q : NodeId → Nat → Prop} (hmono : ∀ n i j, i ≤ j → Q n i → Q n j)
    (h : ∀ n ∈ ns, ∃ levels, Q n levels) : ∃ levels, ∀ n ∈ ns, Q n levels := by
  induction ns with
  | nil => exact ⟨0, nofun⟩
  | cons n ns ih =>
    obtain ⟨first, hfirst⟩ := h n List.mem_cons_self
    obtain ⟨rest, hrest⟩ := ih fun m hm => h m (List.mem_cons_of_mem _ hm)
    refine ⟨max first rest,
      List.forall_mem_cons.mpr ⟨hmono n _ _ (le_max_left _ _) hfirst, fun m hm => ?_⟩⟩
    exact hmono m _ _ (le_max_right _ _) (hrest m hm)

/-- The attempts at the nodes fail: each is barred, or the descent from it fails. -/
def AllFail (g : Grammar) (token : Option Token) (levels : Nat) (s : Search)
    (ns : List NodeId) : Prop :=
  ∀ n ∈ ns, barred token s n = false →
    descendFor g token levels (s.push g n none) = some (false, s.push g n none)

theorem exists_allFail (h : ∀ n ∈ ns, barred token s n = false →
      ∃ levels, descendFor g token levels (s.push g n none) = some (false, s.push g n none)) :
    ∃ levels, AllFail g token levels s ns := by
  refine exists_bound_of_forall (fun n i j hij hn hbarred => descendFor_mono hij (hn hbarred))
    fun n hn => ?_
  cases hbarred : barred token s n with
  | true => exact ⟨0, nofun⟩
  | false =>
    obtain ⟨levels, hlevels⟩ := h n hn hbarred
    exact ⟨levels, fun _ => hlevels⟩

theorem AllFail.tryEach_append (h : AllFail g token levels s ns) (behind : List NodeId) :
    tryEach g (barred token) (descendFor g token levels) (ns ++ behind) s =
      tryEach g (barred token) (descendFor g token levels) behind s := by
  induction ns with
  | nil => rfl
  | cons n ns ih =>
    obtain ⟨hn, hns⟩ := List.forall_mem_cons.mp h
    rw [List.cons_append, tryEach]
    split
    · exact ih hns
    · next hbarred =>
      rw [hn (Bool.eq_false_iff.mpr hbarred)]
      simp only [pop_push_none]
      exact ih hns

theorem exists_levels_of_fails (h : Fails g token s) (hs : 2 ≤ s.graph.size) :
    ∃ levels, descendFor g token levels s = some (false, s) := by
  induction h with
  | astray ht => exact ⟨1, descendFor_of_isEmpty 0 ht⟩
  | refused ht he hany =>
    refine ⟨1, ?_⟩
    rw [descendFor_of_expected 0 ht he, hany]
    rfl
  | @closed s tip ht he hsucc =>
    refine ⟨1, ?_⟩
    rw [descendFor_of_leave 0 ht he, leave]
    rcases hboth : s.graph.successors g tip.node ⟨s.path, token⟩ with ⟨next, graph⟩
    rw [hboth] at hsucc
    obtain rfl : next = none := hsucc
    obtain rfl := Graph.successors_none hboth
    simp only [Graph.truncate_of_le (le_refl s.graph) hs]
  | @exhausted s tip next graph ht he hsucc hend _ ih =>
    have hle := successors_le hsucc
    obtain ⟨levels, hfail⟩ := exists_allFail fun n hn hbarred => ih n hn hbarred (le_trans hs hle.1)
    refine ⟨levels + 1, ?_⟩
    have htry := hfail.tryEach_append []
    rw [List.append_nil, tryEach] at htry
    rw [descendFor_of_leave levels ht he, leave, hsucc]
    simp only [htry, Graph.truncate_of_le hle hs]
    rw [if_neg]
    intro hboth
    rw [Bool.and_eq_true, List.isEmpty_iff] at hboth
    rw [hend hboth.1] at hboth
    exact absurd hboth.2 (by simp)

theorem exists_levels_of_arrives (h : Arrives g token s s') (hs : 2 ≤ s.graph.size) :
    2 ≤ s'.graph.size ∧ ∃ levels, descendFor g token levels s = some (true, s') := by
  induction h with
  | taken ht he hany =>
    refine ⟨hs, 1, ?_⟩
    rw [descendFor_of_expected 0 ht he, hany]
    rfl
  | complete ht he hsucc hend =>
    refine ⟨le_trans hs (successors_le hsucc).1, 1, ?_⟩
    rw [descendFor_of_leave 0 ht he, leave, hsucc]
    simp only [hend, List.isEmpty_nil, Bool.and_self, if_true]
  | @step s s' tip graph before behind n ht he hsucc hbefore hn _ ih =>
    have hgraph : 2 ≤ graph.size := le_trans hs (successors_le hsucc).1
    obtain ⟨hs', there, hthere⟩ := ih hgraph
    obtain ⟨ahead, hfail⟩ := exists_allFail fun m hm hbarred =>
      exists_levels_of_fails (hbefore m hm hbarred) hgraph
    refine ⟨hs', max there ahead + 1, ?_⟩
    have hfail' : AllFail g token (max there ahead) { s with graph } before := fun m hm hbarred =>
      descendFor_mono (le_max_right _ _) (hfail m hm hbarred)
    have htry := hfail'.tryEach_append (n :: behind)
    rw [tryEach, if_neg (by rw [hn]; simp),
      descendFor_mono (le_max_left there ahead) hthere] at htry
    rw [descendFor_of_leave _ ht he, leave, hsucc]
    simp only [htry]
    rw [if_neg (by simp)]

/-! ## Stepping back -/

theorem backtrackFrom_of_retreats (h : Retreats graph full els pending els' pending')
    (hs : 2 ≤ graph.size) (hrev : Path.Reversible graph g els) {fuel : Nat}
    (hfuel : els.length ≤ fuel) (removed : List PathElement) :
    backtrackFrom g full fuel (ofElements graph g els) pending removed =
      (true, ofElements graph g els', pending') := by
  induction h generalizing fuel removed with
  | @switch e rest pending n halt =>
    obtain ⟨fuel, rfl⟩ := Nat.exists_eq_add_one_of_ne_zero (Nat.ne_zero_of_lt hfuel)
    obtain ⟨parent, rest, rfl, -⟩ := exists_parent halt
    rw [backtrackFrom_succ (g := g) hs (elements_ofElements graph g _), if_neg nofun,
      graph_ofElements, halt]
    simp only
    rw [ofElements_cons graph g e, pop_push hrev.1]
    rfl
  | @back e rest els' pending pending' halt hbarrier hrest ih =>
    obtain ⟨fuel, rfl⟩ := Nat.exists_eq_add_one_of_ne_zero (Nat.ne_zero_of_lt hfuel)
    have hbarred : ((graph.kind e.node).isRuleEnd && !full) = false := by
      rcases hbarrier with rfl | hend
      · rw [Bool.not_true, Bool.and_false]
      · rw [hend, Bool.false_and]
    rw [backtrackFrom_succ (g := g) hs (elements_ofElements graph g _), if_neg hrest.ne_nil,
      graph_ofElements, halt]
    simp only [hbarred, Bool.false_eq_true, if_false]
    have hpop : (ofElements graph g (e :: rest)).pop = ofElements graph g rest := by
      rw [ofElements_cons, pop_push hrev.1]
    rw [hpop, ← ofElements_cons, hpop]
    exact ih hrev.2 (Nat.le_of_succ_le_succ hfuel) _

/-- Where a retreat is told the search steps back. -/
theorem backtrack_of_retreats (h : Retreats graph full els [] els' pending') (hs : 2 ≤ graph.size)
    (hrev : Path.Reversible graph g els) (pending : List Token) :
    (ofElements graph g els).backtrack g full pending =
      (true, ofElements graph g els', pending' ++ pending) := by
  rw [backtrack, Path.length, elements_ofElements]
  exact backtrackFrom_of_retreats (h.append pending) hs hrev (le_refl _) []

/-! ## What a path does not return to -/

end Search

namespace Search

variable {g : Grammar} {full : Bool} {P : Search → Prop} {graph : Graph}

/-! ## Telling what happens -/

/-- From the path over the elements, with the tokens that are left, the search comes to an
end for which `P` holds: it is complete, or the next token is taken, or the descent fails
and the search steps back. -/
inductive Succeeds (g : Grammar) (full : Bool) (P : Search → Prop) :
    Graph → List PathElement → List Token → Prop
  | complete {graph : Graph} {els : List PathElement} {s : Search} :
      Arrives g none (ofElements graph g els) s → P s → Succeeds g full P graph els []
  | taken {a b : Graph} {els els' : List PathElement} {t : Token} {rest : List Token} :
      Arrives g (some t) (ofElements a g els) (ofElements b g els') →
        Succeeds g full P b els' rest → Succeeds g full P a els (t :: rest)
  | retreated {graph : Graph} {els els' : List PathElement} {tokens back : List Token} :
      Fails g tokens.head? (ofElements graph g els) → Path.Reversible graph g els →
      Retreats graph full els [] els' back → Succeeds g full P graph els' (back ++ tokens) →
      Succeeds g full P graph els tokens

/-- The same in the middle of a descent, which is not going to fail. -/
def Proceeds (g : Grammar) (full : Bool) (P : Search → Prop) (graph : Graph)
    (els : List PathElement) : List Token → Prop
  | [] => ∃ s, Arrives g none (ofElements graph g els) s ∧ P s
  | t :: rest => ∃ b els', Arrives g (some t) (ofElements graph g els) (ofElements b g els') ∧
      Succeeds g full P b els' rest

section

variable {b : Graph} {els els' : List PathElement} {n x : NodeId} {token : Option Token} {t : Token}
  {tokens rest : List Token} {before behind : List NodeId} {rule : RuleId} {ident : Option String}
  {stop : NodeId} {expand : Context → Body} {type : TokenType} {hook : Option Hook} {s' : Search}

theorem Proceeds.succeeds (h : Proceeds g full P graph els tokens) :
    Succeeds g full P graph els tokens := by
  cases tokens with
  | nil =>
    obtain ⟨s, harrives, hP⟩ := h
    exact .complete harrives hP
  | cons t rest =>
    obtain ⟨b, els', harrives, hrest⟩ := h
    exact .taken harrives hrest

theorem Proceeds.of_arrives (h : Proceeds g full P b els' tokens)
    (harrives : ∀ s', Arrives g tokens.head? (ofElements b g els') s' →
      Arrives g tokens.head? (ofElements graph g els) s') : Proceeds g full P graph els tokens := by
  cases tokens with
  | nil =>
    obtain ⟨s, hs, hP⟩ := h
    exact ⟨s, harrives s hs, hP⟩
  | cons t rest =>
    obtain ⟨c, els'', hs, hrest⟩ := h
    exact ⟨c, els'', harrives _ hs, hrest⟩

/-- The tip can be left: it is no slot that waits for a token, and all its links count. -/
def Left (graph : Graph) (e : PathElement) : Prop :=
  (graph.kind e.node).isPlain = true ∧ (e.token = none → (graph.kind e.node).isSlot = false)

theorem left_of_junction (h : graph.kind n = .junction) : Left graph ⟨n, none⟩ := by
  rw [Left, h]
  exact ⟨rfl, fun _ => rfl⟩

theorem expected?_of_left {e : PathElement} (h : Left graph e) :
    (ofElements graph g (e :: els)).expected? = none := by
  rw [expected?, tip?_eq (elements_ofElements graph g _), Option.bind_some]
  split
  · next hk hnone =>
    have hslot := h.2 hnone
    rw [← graph_ofElements graph g (e :: els), hk] at hslot
    cases hslot
  · rfl

/-- With no token left a descent arrives from no slot that waits for one. -/
theorem Arrives.expected?_eq_none (h : Arrives g none s s') : s.expected? = none := by
  cases h with
  | taken _ _ hany => exact absurd hany nofun
  | complete _ he | step _ he => exact he

theorem barred_eq_false (hn : Path.revisitsIn graph n 0 els = false)
    (h : Arrives g token (ofElements graph g (⟨n, none⟩ :: els)) s') :
    barred token (ofElements graph g els) n = false := by
  rw [barred, Path.revisits, elements_ofElements, graph_ofElements, hn, Bool.or_false,
    Bool.and_eq_false_imp]
  intro htoken
  obtain rfl := Option.isNone_iff_eq_none.mp htoken
  cases hk : graph.kind n with
  | slot type ident hook =>
    have hexpected := (expected?_push g (ofElements graph g els) n type).mpr ⟨ident, hook, hk⟩
    rw [← ofElements_cons graph g ⟨n, none⟩, h.expected?_eq_none] at hexpected
    cases hexpected
  | _ => rfl

/-- From a tip that can be left the descent goes on to the first node that is
neither revisited nor fails. -/
theorem Proceeds.step {e : PathElement} (hleft : Left graph e)
    (hwired : graph.wired e.node = before ++ n :: behind)
    (hbefore : ∀ m ∈ before, Fails g tokens.head? (ofElements graph g (⟨m, none⟩ :: e :: els)))
    (hn : Path.revisitsIn graph n 0 (e :: els) = false)
    (h : Proceeds g full P graph (⟨n, none⟩ :: e :: els) tokens) :
    Proceeds g full P graph (e :: els) tokens := by
  refine h.of_arrives fun s' harrives => ?_
  have hsucc : graph.successors g e.node ⟨(ofElements graph g (e :: els)).path, tokens.head?⟩ =
      (some (before ++ n :: behind), graph) := by
    rw [Graph.successors_of_isPlain g hleft.1, hwired]
  exact .step (tip?_eq (elements_ofElements graph g _)) (expected?_of_left hleft) hsucc
    (fun m hm _ => hbefore m hm) (barred_eq_false hn harrives) harrives

/-- The start of a rule is left into a fresh body. -/
theorem Proceeds.enter (hk : graph.kind n = .ruleStart rule ident stop)
    (hexpand : g.expand? rule = some expand) (hlt : ∀ e ∈ els, e.node < graph.size)
    (h : Proceeds g full P (graph.addBody (expand ⟨(ofElements graph g (⟨n, none⟩ :: els)).path,
      tokens.head?⟩) stop).2 (⟨graph.size, none⟩ :: ⟨n, none⟩ :: els) tokens) :
    Proceeds g full P graph (⟨n, none⟩ :: els) tokens := by
  refine h.of_arrives fun s' harrives => ?_
  have hsucc : _ = (some ([] ++ graph.size :: []), _) :=
    Graph.successors_of_ruleStart hk hexpand ⟨(ofElements graph g (⟨n, none⟩ :: els)).path,
      tokens.head?⟩
  have hbody := Graph.addBody_hasBody graph
    (expand ⟨(ofElements graph g (⟨n, none⟩ :: els)).path, tokens.head?⟩) stop
  have hlt' : ∀ e ∈ (⟨n, none⟩ :: els : List PathElement), e.node < graph.size :=
    List.forall_mem_cons.mpr ⟨Graph.lt_size_of_startedRule (by rw [hk]; rfl), hlt⟩
  generalize (graph.addBody (expand _) stop).2 = b at hbody hsucc harrives
  have heq : { ofElements graph g (⟨n, none⟩ :: els) with graph := b } =
      ofElements b g (⟨n, none⟩ :: els) := by
    rw [ofElements, ofElements, Path.replay_of_le hbody.le hlt']
  refine .step (tip?_eq (elements_ofElements graph g _)) ?_ hsucc (by simp) ?_ ?_
  · rw [expected?, tip?_eq (elements_ofElements graph g _), Option.bind_some, graph_ofElements, hk]
  · rw [heq]
    refine barred_eq_false (Path.not_revisits (fun hmem => ?_) (fun rule hrule => ?_) 0) harrives
    · exact absurd (Path.lt_size_of_mem_visited hlt' hmem) (Nat.lt_irrefl _)
    · rw [hbody.entry] at hrule
      cases hrule
  · rw [heq]
    exact harrives

/-- A slot takes a token of its type. -/
theorem Proceeds.take (hk : graph.kind n = .slot type ident hook) (ht : t.hasType type.id = true)
    (h : Succeeds g full P graph (⟨n, some t⟩ :: els) rest) :
    Proceeds g full P graph (⟨n, none⟩ :: els) (t :: rest) := by
  refine ⟨graph, ⟨n, some t⟩ :: els, ?_, h⟩
  have htaken : Arrives g (some t) (ofElements graph g (⟨n, none⟩ :: els))
      ((ofElements graph g (⟨n, none⟩ :: els)).pop.push g n (some t)) :=
    .taken (tip?_eq (elements_ofElements graph g _))
      ((expected?_push g (ofElements graph g els) n type).mpr ⟨ident, hook, hk⟩) ht
  rwa [ofElements_cons, pop_push_none, ← ofElements_cons graph g ⟨n, some t⟩] at htaken

/-- Where no token is left the search ends on a rule end that leads nowhere. -/
theorem Proceeds.finish (hk : graph.kind n = .ruleEnd rule ident) (hwired : graph.wired n = [])
    (hP : P (ofElements graph g (⟨n, none⟩ :: els))) :
    Proceeds g full P graph (⟨n, none⟩ :: els) [] := by
  have hplain : (graph.kind n).isPlain = true := by rw [hk]; rfl
  have hsucc :=
    Graph.successors_of_isPlain g hplain ⟨(ofElements graph g (⟨n, none⟩ :: els)).path, none⟩
  rw [hwired] at hsucc
  refine ⟨ofElements graph g (⟨n, none⟩ :: els), .complete (tip?_eq (elements_ofElements graph g _))
    (expected?_of_left ⟨hplain, fun _ => by rw [hk]; rfl⟩) hsucc ?_, hP⟩
  rw [graph_ofElements, hk]
  rfl

/-! ## Dead ends -/

/-- From the node no descent for the token arrives, whatever path leads to the node and
whatever is wired later. -/
def Dead (g : Grammar) (token : Option Token) (graph : Graph) (n : NodeId) : Prop :=
  ∀ b, graph ≤ b → ∀ els : List PathElement, (∀ e ∈ els, e.node < b.size) →
    Fails g token (ofElements b g (⟨n, none⟩ :: els))

theorem Dead.of_le (h : Dead g token graph n) (hle : graph ≤ b) : Dead g token b n :=
  fun c hc => h c (le_trans hle hc)

/-- A slot refuses a token that does not have its type. -/
theorem dead_slot (hk : graph.kind n = .slot type ident hook)
    (h : token.any (·.hasType type.id) = false) : Dead g token graph n := by
  intro b hle els _
  have hn : n < graph.size := Graph.lt_size_of_isSlot (by rw [hk]; rfl)
  refine .refused (tip?_eq (elements_ofElements b g _)) ?_ h
  exact (expected?_push g (ofElements b g els) n type).mpr ⟨ident, hook, by
    rw [graph_ofElements, Graph.kind_of_le hle hn, hk]⟩

/-- A descent from a tip that can be left fails if all that the tip leads to is dead. -/
theorem fails_of_dead {e : PathElement} (hleft : Left graph e) (hwired : graph.wired e.node ≠ [])
    (hlt : ∀ e' ∈ e :: els, e'.node < graph.size)
    (h : ∀ m ∈ graph.wired e.node, Dead g token graph m) :
    Fails g token (ofElements graph g (e :: els)) :=
  .exhausted (tip?_eq (elements_ofElements graph g _)) (expected?_of_left hleft)
    (Graph.successors_of_isPlain g hleft.1 _) (fun hnil => absurd hnil hwired)
    fun m hm _ => h m hm graph (le_refl graph) _ hlt

theorem dead_of_wired (hplain : (graph.kind n).isPlain = true)
    (hslot : (graph.kind n).isSlot = false) (hwired : graph.wired n ≠ [])
    (h : ∀ m ∈ graph.wired n, Dead g token graph m) : Dead g token graph n := by
  intro b hle els hels
  obtain ⟨m, hm⟩ := List.exists_mem_of_ne_nil _ hwired
  have hn := Graph.lt_size_of_mem_wired hm
  refine fails_of_dead ⟨by rwa [Graph.kind_of_le hle hn], fun _ => by rwa [Graph.kind_of_le hle hn]⟩
    (by rwa [Graph.wired_of_le hle hn])
    (List.forall_mem_cons.mpr ⟨lt_of_lt_of_le hn hle.1, hels⟩) fun m hm => ?_
  rw [Graph.wired_of_le hle hn] at hm
  exact (h m hm).of_le hle

/-- The start of a rule is dead if the entry of its body is. -/
theorem dead_of_entry (hk : graph.kind n = .ruleStart rule ident stop)
    (hexpand : g.expand? rule = some expand)
    (h : ∀ b ctx, graph ≤ b → Dead g token (b.addBody (expand ctx) stop).2 b.size) :
    Dead g token graph n := by
  intro b hle els hels
  have hn : n < graph.size := Graph.lt_size_of_startedRule (by rw [hk]; rfl)
  have hlt : ∀ e ∈ (⟨n, none⟩ :: els : List PathElement), e.node < b.size :=
    List.forall_mem_cons.mpr ⟨lt_of_lt_of_le hn hle.1, hels⟩
  have hkb : b.kind n = .ruleStart rule ident stop := by rw [Graph.kind_of_le hle hn, hk]
  have hbody :=
    Graph.addBody_hasBody b (expand ⟨(ofElements b g (⟨n, none⟩ :: els)).path, token⟩) stop
  have hdead := h b ⟨(ofElements b g (⟨n, none⟩ :: els)).path, token⟩ hle
  have hsucc :=
    Graph.successors_of_ruleStart hkb hexpand ⟨(ofElements b g (⟨n, none⟩ :: els)).path, token⟩
  generalize (b.addBody (expand _) stop).2 = c at hbody hdead hsucc
  refine .exhausted (tip?_eq (elements_ofElements b g _)) ?_ hsucc nofun fun m hm _ => ?_
  · rw [expected?, tip?_eq (elements_ofElements b g _), Option.bind_some, graph_ofElements, hkb]
  · obtain rfl := List.mem_singleton.mp hm
    have hfails := hdead c (le_refl c) (⟨n, none⟩ :: els) fun e he =>
      lt_of_lt_of_le (hlt e he) hbody.le.1
    rwa [ofElements_cons, ofElements, Path.replay_of_le hbody.le hlt] at hfails

/-! ## Alternatives -/

theorem later_of_single {parent : NodeId} (h : graph.wired parent = [n]) :
    graph.later parent n = [] := by
  unfold Graph.later
  split
  · rw [h]
    exact Graph.tail_dropWhile_of_length_le _ (le_refl 1)
  · rfl

theorem later_of_ruleStart {parent : NodeId} (hk : graph.kind parent = .ruleStart rule ident stop)
    (n : NodeId) : graph.later parent n = [] := by
  rw [Graph.later, hk]
  rfl

/-- Where nothing is linked behind the tip there is no alternative to it. -/
theorem alternative?_of_later {e parent : PathElement} (h : graph.later parent.node e.node = []) :
    graph.alternative? (e :: parent :: els) = none := by
  rw [Graph.alternative?, h]
  rfl

/-- The next link is the alternative, if the path does not return to it. -/
theorem alternative?_of_wired {e parent : PathElement} {m : NodeId} (hleft : Left graph parent)
    (hwired : graph.wired parent.node = before ++ e.node :: m :: behind) (hbefore : e.node ∉ before)
    (hm : Path.revisitsIn graph m 0 (parent :: els) = false) :
    graph.alternative? (e :: parent :: els) = some m := by
  have hskip : ∀ k ∈ before, (k != e.node) = true := fun k hk => bne_iff_ne.mpr fun heq =>
    hbefore (heq ▸ hk)
  rw [Graph.alternative?, Graph.later, if_pos hleft.1, hwired, List.dropWhile_append_of_pos hskip,
    List.dropWhile_cons, if_neg (by simp), List.tail_cons, List.find?_cons, hm]
  rfl

/-- Behind a dead end the search goes on with the next of the nodes, as long as
these are dead ends, too. -/
theorem Succeeds.skip {parent : PathElement} {m : NodeId} {between : List NodeId}
    (hregular : graph.Regular) (hlt : ∀ e ∈ parent :: els, e.node < graph.size)
    (hleft : Left graph parent)
    (hwired : graph.wired parent.node = before ++ (between ++ n :: behind))
    (hnodup : (graph.wired parent.node).Nodup) (hdead : ∀ k ∈ between, Dead g tokens.head? graph k)
    (hfresh : ∀ k ∈ between ++ [n], Path.revisitsIn graph k 0 (parent :: els) = false)
    (h : Succeeds g full P graph (⟨n, none⟩ :: parent :: els) tokens)
    (hm : (between ++ [n]).head? = some m) :
    Succeeds g full P graph (⟨m, none⟩ :: parent :: els) tokens := by
  induction between generalizing before m with
  | nil =>
    obtain rfl : n = m := Option.some.inj hm
    exact h
  | cons k between ih =>
    obtain rfl : k = m := Option.some.inj hm
    obtain ⟨next, rest, hnext⟩ := List.exists_cons_of_ne_nil
      (List.append_ne_nil_of_right_ne_nil between (List.cons_ne_nil n []))
    have hrest : between ++ n :: behind = next :: (rest ++ behind) := by
      rw [← List.cons_append, ← hnext, List.append_assoc, List.singleton_append]
    rw [List.cons_append, hnext] at hfresh
    have halt : graph.alternative? (⟨k, none⟩ :: parent :: els) = some next := by
      refine alternative?_of_wired hleft (by rw [hwired, List.cons_append, hrest]) ?_
        (hfresh next (List.mem_cons_of_mem _ List.mem_cons_self))
      rw [hwired, List.cons_append] at hnodup
      exact fun hk => (List.nodup_append.mp hnodup).2.2 k hk k List.mem_cons_self rfl
    refine .retreated (hdead k List.mem_cons_self graph (le_refl graph) _ hlt)
      (Path.reversible_of_regular hregular _) (.switch halt) ?_
    have hwired' : graph.wired parent.node = (before ++ [k]) ++ (between ++ n :: behind) := by
      rw [hwired]
      simp
    refine ih hwired' (fun k' hk' => hdead k' (List.mem_cons_of_mem _ hk'))
      (fun k' hk' => hfresh k' (List.mem_cons_of_mem _ (hnext ▸ hk'))) ?_
    rw [hnext]
    rfl

end

/-! ## Trees along the way -/

/-- The search can go on from the tip of the path, and reducing the path leaves these nodes open,
however the arena grows. -/
structure Stands (g : Grammar) (graph : Graph) (els : List PathElement)
    (opened : List Tree) : Prop where
  regular : graph.Regular
  lt : ∀ e ∈ els, e.node < graph.size
  left : ∀ e ∈ els.head?, Left graph e
  opens : ∀ b, graph ≤ b → Tree.Opens g b .ast els opened

namespace Stands

variable {b : Graph} {els : List PathElement} {e : PathElement} {n : NodeId}
  {opened outer : List Tree} {top parent : Tree} {rule : RuleId} {ident : Option String}
  {stop : NodeId} {type : TokenType}

theorem of_le (h : Stands g graph els opened) (hle : graph ≤ b) (hb : b.Regular) :
    Stands g b els opened where
  regular := hb
  lt e he := lt_of_lt_of_le (h.lt e he) hle.1
  left e he := by
    rw [Left, Graph.kind_of_le hle (h.lt e (List.mem_of_mem_head? he))]
    exact h.left e he
  opens c hc := h.opens c (le_trans hle hc)

theorem junction (h : Stands g graph els opened) (hn : n < graph.size)
    (hk : graph.kind n = .junction) : Stands g graph (⟨n, none⟩ :: els) opened where
  regular := h.regular
  lt := List.forall_mem_cons.mpr ⟨hn, h.lt⟩
  left e he := by
    obtain rfl := Option.some.inj he
    exact left_of_junction hk
  opens b hb := by
    refine (h.opens b hb).cons (fun rest => ?_) rfl nofun
    rw [Tree.reduceFrom, Graph.kind_of_le hb hn, hk]

theorem token (h : Stands g graph els (top :: outer)) (hn : n < graph.size)
    (hk : graph.kind n = .slot type ident none) (t : Token) :
    Stands g graph (⟨n, some t⟩ :: els) (top.addChild (.ofToken t (ident.getD "")) :: outer) where
  regular := h.regular
  lt := List.forall_mem_cons.mpr ⟨hn, h.lt⟩
  left e he := by
    obtain rfl := Option.some.inj he
    rw [Left, hk]
    exact ⟨rfl, nofun⟩
  opens b hb := by
    refine (h.opens b hb).addChild _ (fun rest => ?_) nofun
    rw [Tree.reduceFrom, Graph.kind_of_le hb hn, hk]

/-- Where a rule ends, its node is rewritten and becomes a child of the node around it. -/
theorem close (h : Stands g graph els (top :: parent :: outer))
    (hk : graph.kind stop = .ruleEnd rule ident) :
    Stands g graph (⟨stop, none⟩ :: els)
      (parent.addChild (top.transformed g .ast rule) :: outer) where
  regular := h.regular
  lt := List.forall_mem_cons.mpr ⟨Graph.lt_size_of_isRuleEnd (by rw [hk]; rfl), h.lt⟩
  left e he := by
    obtain rfl := Option.some.inj he
    rw [Left, hk]
    exact ⟨rfl, fun _ => rfl⟩
  opens b hb :=
    (h.opens b hb).close
      (by rw [Graph.kind_of_le hb (Graph.lt_size_of_isRuleEnd (by rw [hk]; rfl)), hk]) rfl

end Stands

end Search

namespace Run

open Search

variable {g : Grammar} {lx : Lexer} {full : Bool} {P : Search → Prop} {graph : Graph}
  {els : List PathElement} {tokens ahead : List Token} {r t : Run}

theorem idle_fetch (hs : r.stream.Idle) (hf : r.fetch lx = .ok t) : t.stream.Idle := by
  rcases fetch_ok hf with ⟨-, rfl⟩ | ⟨-, o, stream, hnext, rfl⟩
  · exact hs
  · cases o with
    | none => exact (Stream.results_of_next_none hs hnext).1
    | some token => exact (Stream.results_of_next_some hs hnext).1

/-- The answer is that of the run that a step goes on with. -/
theorem exists_bound_of_step {r' : Run} {levels bound : Nat} {answer : Except ParseError Search}
    (hstep : r.step g lx full levels = some (.goOn r'))
    (h : r'.iterate g lx full bound bound = some answer) :
    ∃ bound, r.iterate g lx full bound bound = some answer := by
  refine ⟨max levels bound + 1, ?_⟩
  rw [iterate, step_mono (le_trans (le_max_left levels bound) (Nat.le_succ _)) hstep]
  exact iterate_mono (le_trans (le_max_right _ _) (Nat.le_succ _)) (le_max_right _ _) h

/-- The run that stands where a search is told to succeed gives that answer. -/
theorem exists_iterate (h : Succeeds g full P graph els tokens)
    (hsearch : r.search = ofElements graph g els) (hs : 2 ≤ graph.size) (hidle : r.stream.Idle)
    (hahead : (r.stream.results lx).1 = ahead.map .ok) (htokens : r.pending ++ ahead = tokens) :
    ∃ s, P s ∧ ∃ bound, r.iterate g lx full bound bound = some (.ok s) := by
  induction h generalizing r ahead with
  | @complete graph els s harrives hP =>
    obtain ⟨t, ahead', hf, -, htokens', -⟩ := exists_fetch_of_ahead hidle hahead
    obtain ⟨hpending, -⟩ := List.append_eq_nil_iff.mp (htokens'.trans htokens)
    obtain ⟨-, levels, hdescend⟩ := exists_levels_of_arrives harrives hs
    obtain ⟨e, hstep⟩ := step_eq g full hf
    have hdone := hstep levels
    rw [hpending, List.head?_nil, search_fetch hf, hsearch, hdescend] at hdone
    refine ⟨s, hP, levels + 1, ?_⟩
    rw [iterate, step_mono (Nat.le_succ levels) hdone]
  | @taken a b els els' token rest harrives _ ih =>
    obtain ⟨t, ahead', hf, hahead', htokens', hnil⟩ := exists_fetch_of_ahead hidle hahead
    obtain ⟨pending, hpending⟩ : ∃ pending, t.pending = token :: pending := by
      rw [htokens] at htokens'
      cases hp : t.pending with
      | nil =>
        rw [hp, hnil hp] at htokens'
        cases htokens'
      | cons first pending =>
        rw [hp] at htokens'
        exact ⟨pending, by rw [(List.cons.inj htokens').1]⟩
    rw [htokens, hpending] at htokens'
    obtain ⟨hb, levels, hdescend⟩ := exists_levels_of_arrives harrives hs
    obtain ⟨e, hstep⟩ := step_eq g full hf
    have hgo := hstep levels
    rw [hpending, List.head?_cons, search_fetch hf, hsearch, hdescend] at hgo
    have hidle' := idle_fetch hidle hf
    obtain ⟨s, hP, bound, hiterate⟩ := ih (r := { t with search := ofElements b g els', pending })
      rfl hb hidle' hahead' (List.cons.inj htokens').2
    exact ⟨s, hP, exists_bound_of_step hgo hiterate⟩
  | @retreated graph els els' tokens back hfails hrev hretreats _ ih =>
    obtain ⟨t, ahead', hf, hahead', htokens', hnil⟩ := exists_fetch_of_ahead hidle hahead
    rw [htokens] at htokens'
    have hhead : tokens.head? = t.pending.head? := by
      rw [← htokens']
      cases hp : t.pending with
      | nil => rw [hnil hp, List.nil_append]
      | cons => rfl
    rw [hhead] at hfails
    obtain ⟨levels, hdescend⟩ := exists_levels_of_fails hfails hs
    obtain ⟨e, hstep⟩ := step_eq g full hf
    have hgo := hstep levels
    rw [search_fetch hf, hsearch, hdescend] at hgo
    simp only [retreat, backtrack_of_retreats hretreats hs hrev] at hgo
    have hidle' := idle_fetch hidle hf
    obtain ⟨s, hP, bound, hiterate⟩ :=
      ih (r := { t with search := ofElements graph g els', pending := back ++ t.pending }) rfl hs
      hidle' hahead' (by rw [List.append_assoc, htokens'])
    exact ⟨s, hP, exists_bound_of_step hgo hiterate⟩

end Run

/-- A search that is told to succeed from the start gives its answer from some bound on. -/
theorem Parser.searchWithin_of_succeeds {p : Parser} {P : Search → Prop} {text : List Char}
    {source : Option String} {tokens : List Token}
    (htokens : p.lexer.tokenizeFrom text source = .ok tokens)
    (h : Search.Succeeds p.grammar p.fullBacktracking P (.ofGrammar p.grammar)
      [⟨Graph.root, none⟩] tokens) :
    ∃ s, P s ∧ ∃ bound, ∀ fuel, bound ≤ fuel → p.searchWithin fuel text source = some (.ok s) := by
  obtain ⟨s, hP, bound, hiterate⟩ := Run.exists_iterate (r := p.start text source) h rfl (le_refl 2)
    (Stream.idle_stream p.lexer text source) (mapM_id_eq_ok.mp htokens) rfl
  exact ⟨s, hP, bound, fun fuel hfuel => Run.iterate_mono hfuel hfuel hiterate⟩

end GrammarGraph
