import GrammarGraph.Proofs.Definitions
import GrammarGraph.Proofs.Exhaustive
import GrammarGraph.Proofs.Openings
import Mathlib.Data.Prod.Lex

/-!
# What a grammar generates is accepted

A text that a derivation of a regular grammar has as its tokens is accepted with full backtracking,
unless a rule begins with itself.  The derivation leads the way (`Path.Ahead`).  Of all the ways
from a node to the end of the root rule some enter the fewest rules, and of these some make the
fewest steps.  A path that goes such a way gets nearer to the end with every step, so it does not
come back to a node it has visited since the last token.  What the enumeration tries before it goes
that way is in vain, or is accepted, too.
-/

namespace GrammarGraph

namespace Derivation

mutual

/-- How many rules are entered. -/
def instances : Derivation → ℕ
  | leaf .. => 0
  | node _ _ children => instancesOfAll children + 1

def instancesOfAll : List Derivation → ℕ
  | [] => 0
  | d :: ds => instances d + instancesOfAll ds

end

end Derivation

theorem NodeKind.isSlot_of_isRuleEnd {k : NodeKind} (h : k.isRuleEnd = true) :
    k.isSlot = false := by
  cases k with
  | ruleEnd => rfl
  | _ => exact absurd h nofun

namespace Path

variable {a b graph : Graph} {g : Grammar} {e : PathElement} {els : List PathElement} {n m : NodeId}
  {tokens : List Token} {c s c' s' : ℕ} {lo hi stop : NodeId} {f : Frame} {frames fs : List Frame}

/-! ## The way to the end -/

/-- A way from an element to the end of the root rule that takes the tokens.  It enters `c` rules,
and makes `s` steps in the bodies that are open already. -/
inductive Ahead (graph : Graph) (g : Grammar) : PathElement → List Token → ℕ → ℕ → Prop
  | done : Ahead graph g ⟨Graph.rootEnd, none⟩ [] 0 0
  /-- Leave a node along a link, but no slot that waits for a token. -/
  | hop {e : PathElement} {m : NodeId} {tokens : List Token}
      {c s : ℕ} : (graph.kind e.node).isPlain = true →
      ((graph.kind e.node).isSlot = true → e.token.isSome = true) → m ∈ graph.wired e.node →
      Ahead graph g ⟨m, none⟩ tokens c s → Ahead graph g e tokens c (s + 1)
  /-- A slot takes a token. -/
  | take {n : NodeId} {type : TokenType} {ident : Option String} {hook : Option Hook} {t : Token}
      {tokens : List Token}
      {c s : ℕ} : graph.kind n = .slot type ident hook → t.hasType type.id = true →
      Ahead graph g ⟨n, some t⟩ tokens c s → Ahead graph g ⟨n, none⟩ (t :: tokens) c (s + 1)
  /-- An instance of a rule takes the tokens that it derives. -/
  | call {n : NodeId} {rule : RuleId} {ident : Option String} {stop : NodeId} {ds : List Derivation}
      {tokens : List Token} {c s : ℕ} : graph.kind n = .ruleStart rule ident stop →
      g.Generates (.node rule ident ds) → Ahead graph g ⟨stop, none⟩ tokens c s →
      Ahead graph g ⟨n,
        none⟩ (Derivation.tokensOfAll ds ++ tokens) (c + Derivation.instancesOfAll ds + 1) (s + 1)

theorem Nested.eq_rootEnd (h : Nested graph g (f :: fs)) (hlo : f.lo ≤ Graph.rootEnd) :
    f.stop = Graph.rootEnd := by
  cases h with
  | base => rfl
  | cons hnested _ _ hbehind =>
    exact absurd (le_trans hnested.two_le_hi (le_trans hbehind hlo)) (by decide)

namespace Ahead

/-- The way stays open while the arena grows. -/
theorem of_le (hle : a ≤ b) (h : Ahead a g e tokens c s) : Ahead b g e tokens c s := by
  induction h with
  | done => exact .done
  | hop hplain hslot hm _ ih =>
    have hlt := Graph.lt_size_of_mem_wired hm
    rw [← Graph.kind_of_le hle hlt] at hplain hslot
    rw [← Graph.wired_of_le hle hlt] at hm
    exact .hop hplain hslot hm ih
  | @take n _ _ _ _ _ _ _ hk htype hrest ih =>
    have hlt : n < a.size := Graph.lt_size_of_isSlot (by rw [hk]; rfl)
    exact .take (by rw [Graph.kind_of_le hle hlt, hk]) htype ih
  | @call n _ _ _ _ _ _ _ hk hgenerates _ ih =>
    have hlt : n < a.size := Graph.lt_size_of_startedRule (by rw [hk]; rfl)
    exact .call (by rw [Graph.kind_of_le hle hlt, hk]) hgenerates ih

/-- The way keeps to the nodes that were there before the arena grew. -/
theorem to_le (hle : a ≤ b) (ha : a.WellFormed) (h : Ahead b g e tokens c s) :
    e.node < a.size → Ahead a g e tokens c s := by
  induction h with
  | done => exact fun _ => .done
  | @hop e m _ _ _ hplain hslot hm _ ih =>
    intro hlt
    rw [Graph.kind_of_le hle hlt] at hplain hslot
    rw [Graph.wired_of_le hle hlt] at hm
    refine .hop hplain hslot hm (ih (ha.targets_lt e.node m ?_))
    rwa [Graph.targets, NodeKind.targets_of_isPlain hplain]
  | take hk htype _ ih =>
    intro hlt
    exact .take (by rw [← Graph.kind_of_le hle hlt, hk]) htype (ih hlt)
  | call hk hgenerates _ ih =>
    intro hlt
    rw [Graph.kind_of_le hle hlt] at hk
    exact .call hk hgenerates (ih (ha.stop_lt _ _ _ _ hk))

/-- A walk through a body is the first part of a way if what it passes has derivations. -/
theorem of_walk {N : ℕ} {w : List Label} (hgraph : graph.Regular) (hwalk : graph.Walk stop n N w)
    (h : Ahead graph g ⟨stop, none⟩ tokens c s) :
    ∀ {ds : List Derivation}, ds.map (·.label) = w → (∀ d ∈ ds, g.Generates d) →
      ∃ s', Ahead graph g ⟨n, none⟩ (Derivation.tokensOfAll ds ++ tokens)
        (c + Derivation.instancesOfAll ds) s' := by
  induction hwalk with
  | done =>
    intro ds hds _
    obtain rfl := List.map_eq_nil_iff.mp hds
    exact ⟨s, h⟩
  | @hop n m N w _ hm _ ih =>
    intro ds hds hgenerates
    have hregular := hgraph n
    unfold Graph.onward at hm
    cases hk : graph.kind n with
    | gate | switch =>
      rw [hk] at hregular
      exact absurd hregular id
    | junction | ruleEnd =>
      simp only [hk, Graph.targets, NodeKind.targets] at hm
      rw [hk] at hds
      obtain ⟨s', hrest⟩ := ih hds hgenerates
      exact ⟨_, .hop (by rw [hk]; rfl) (by simp [hk, NodeKind.isSlot]) hm hrest⟩
    | slot type ident hook =>
      simp only [hk, Graph.targets, NodeKind.targets] at hm
      rw [hk] at hds
      obtain ⟨d, ds, rfl, hlabel, hds⟩ := List.map_eq_cons_iff.mp hds
      obtain ⟨hd, hgenerates⟩ := List.forall_mem_cons.mp hgenerates
      obtain ⟨s', hrest⟩ := ih hds hgenerates
      cases hd with
      | node => cases hlabel
      | @leaf _ _ t htype =>
        obtain ⟨rfl, rfl⟩ := Label.token.inj hlabel
        have hrest' := hrest.hop (e := ⟨n, some t⟩) (by rw [hk]; rfl) (fun _ => rfl) hm
        refine ⟨s' + 1 + 1, ?_⟩
        rw [Derivation.instancesOfAll, Derivation.instances, Nat.zero_add]
        exact .take hk htype hrest'
    | ruleStart rule ident stop' =>
      simp only [hk, List.mem_singleton] at hm
      subst hm
      rw [hk] at hds
      obtain ⟨d, ds, rfl, hlabel, hds⟩ := List.map_eq_cons_iff.mp hds
      obtain ⟨hd, hgenerates⟩ := List.forall_mem_cons.mp hgenerates
      obtain ⟨s', hrest⟩ := ih hds hgenerates
      cases d with
      | leaf => cases hlabel
      | node rule' ident' children =>
        obtain ⟨rfl, rfl⟩ := Label.rule.inj hlabel
        have hcall := hrest.call hk hd
        rw [← List.append_assoc] at hcall
        refine ⟨s' + 1, ?_⟩
        rw [Derivation.tokensOfAll, Derivation.tokens, Derivation.instancesOfAll,
          Derivation.instances]
        convert hcall using 1
        omega

/-- The way out of a body leads through the end of its rule. -/
theorem exists_walk (hregion : graph.Region lo hi stop)
    (hroot : lo ≤ Graph.rootEnd → stop = Graph.rootEnd) (hstop : (graph.kind stop).isRuleEnd = true)
    (h : Ahead graph g e tokens c s) : lo ≤ e.node → e.node < hi →
    (∃ N w, graph.Walk stop e.node N w) ∧ ∃ tokens c s, Ahead graph g ⟨stop, none⟩ tokens c s := by
  induction h with
  | done =>
    intro hlo _
    rw [hroot hlo]
    exact ⟨⟨0, [], .done⟩, _, _, _, .done⟩
  | @hop e m tokens c s hplain hslot hm hrest ih =>
    intro hlo hhi
    by_cases heq : stop = e.node
    · rw [← heq] at hplain hm ⊢
      refine ⟨⟨0, [], .done⟩, _, _, _, hrest.hop (e := ⟨stop, none⟩) hplain (fun hslot' => ?_) hm⟩
      exact absurd (hslot'.symm.trans (NodeKind.isSlot_of_isRuleEnd hstop)) nofun
    · have htargets : m ∈ graph.targets e.node := by
        rwa [Graph.targets, NodeKind.targets_of_isPlain hplain]
      rcases hregion.targets e.node hlo hhi m htargets with rfl | ⟨hlo', hhi'⟩
      · exact ⟨⟨_, _, .hop heq (mem_onward htargets) .done⟩, _, _, _, hrest⟩
      · obtain ⟨⟨N, w, hwalk⟩, hahead⟩ := ih hlo' hhi'
        exact ⟨⟨_, _, hwalk.hop heq (mem_onward htargets)⟩, hahead⟩
  | take _ _ _ ih => exact ih
  | @call n rule ident stop' ds tokens c s hk _ _ ih =>
    intro hlo hhi
    obtain ⟨hlo', hhi', -⟩ := hregion.stops n rule ident stop' hlo hhi hk
    obtain ⟨⟨N, w, hwalk⟩, hahead⟩ := ih hlo' hhi'
    refine ⟨⟨_, _, hwalk.hop (n := n) ?_ ?_⟩, hahead⟩
    · intro heq
      rw [heq, hk] at hstop
      exact absurd hstop nofun
    · rw [Graph.onward, hk]
      exact List.mem_singleton_self _

/-- The way leads out of all open bodies. -/
theorem walksOut (h : Ahead graph g e tokens c s) (hnested : Nested graph g (f :: fs))
    (hholds : f.Holds e.node) : WalksOut graph (f :: fs) e.node := by
  induction fs generalizing f e tokens c s with
  | nil =>
    obtain ⟨hwalk, -⟩ :=
      h.exists_walk hnested.region hnested.eq_rootEnd hnested.isRuleEnd_stop hholds.1 hholds.2
    exact ⟨hwalk, trivial⟩
  | cons f' fs ih =>
    obtain ⟨hwalk, tokens', c', s', hrest⟩ :=
      h.exists_walk hnested.region hnested.eq_rootEnd hnested.isRuleEnd_stop hholds.1 hholds.2
    cases hnested with
    | cons hnested _ _ _ hstop => exact ⟨hwalk, ih hrest hnested hstop⟩

end Ahead

/-! ## The nearest way -/

/-- No way from the node enters fewer rules, or as many with fewer steps. -/
def Least (graph : Graph) (g : Grammar) (tokens : List Token) (n : NodeId)
    (bound : ℕ ×ₗ ℕ) : Prop :=
  ∀ c s, Ahead graph g ⟨n, none⟩ tokens c s → bound ≤ toLex (c, s)

theorem exists_least (h : Ahead graph g ⟨n, none⟩ tokens c s) :
    ∃ c' s', Ahead graph g ⟨n, none⟩ tokens c' s' ∧ toLex (c', s') ≤ toLex (c, s) ∧
      Least graph g tokens n (toLex (c', s')) := by
  obtain ⟨r, ⟨c', s', rfl, hahead⟩, hmin⟩ := WellFounded.has_min (wellFounded_lt (α := ℕ ×ₗ ℕ))
    {r | ∃ c s, r = toLex (c, s) ∧ Ahead graph g ⟨n, none⟩ tokens c s} ⟨_, c, s, rfl, h⟩
  have hleast : Least graph g tokens n (toLex (c', s')) :=
    fun c'' s'' hahead' => not_lt.mp (hmin _ ⟨c'', s'', rfl, hahead'⟩)
  exact ⟨c', s', hahead, hleast c s h, hleast⟩

theorem Least.of_le {bound : ℕ ×ₗ ℕ} (h : Least a g tokens n bound) (hle : a ≤ b)
    (ha : a.WellFormed) (hn : n < a.size) : Least b g tokens n bound :=
  fun c s hahead => h c s (hahead.to_le hle ha hn)

/-- A path that got nearer to the end with every step since the last token. -/
structure Guided (graph : Graph) (g : Grammar) (e : PathElement) (els : List PathElement)
    (tokens : List Token) : Prop where
  wellFormed : graph.WellFormed
  regular : graph.Regular
  opened : ∃ frames rules, Opened graph g e els frames rules
  waits : (graph.kind e.node).isSlot = true → e.token.isSome = true
  ahead : ∃ c s, Ahead graph g e tokens c s ∧
    ∀ n ∈ visited (e :: els), Least graph g tokens n (toLex (c, s))

/-- A step onto a node that brings the path nearer to the end. -/
structure Nearer (graph : Graph) (g : Grammar) (n : NodeId) (els : List PathElement)
    (tokens : List Token) : Prop where
  wellFormed : graph.WellFormed
  regular : graph.Regular
  opened : ∃ frames rules, Opened graph g ⟨n, none⟩ els frames rules
  ahead : ∃ c s, Ahead graph g ⟨n, none⟩ tokens c s ∧ Least graph g tokens n (toLex (c, s)) ∧
    ∀ m ∈ visited els, ∃ bound, Least graph g tokens m bound ∧ toLex (c, s) < bound

namespace Nearer

theorem of_le (h : Nearer a g n els tokens) (hle : a ≤ b) (hb : b.WellFormed)
    (hregular : b.Regular) : Nearer b g n els tokens := by
  obtain ⟨frames, rules, hopened⟩ := h.opened
  obtain ⟨c, s, hahead, hleast, hvisited⟩ := h.ahead
  have hlt := hopened.placed.lt_size_of_mem
  refine ⟨hb, hregular, ⟨frames, rules, hopened.of_le hle h.wellFormed⟩, c, s, hahead.of_le hle,
    hleast.of_le hle h.wellFormed hopened.placed.lt_size, fun m hm => ?_⟩
  obtain ⟨bound, hbound, hless⟩ := hvisited m hm
  exact ⟨bound, hbound.of_le hle h.wellFormed
    (lt_size_of_mem_visited (fun e he => hlt e (List.mem_cons_of_mem _ he)) hm), hless⟩

/-- The path does not return to the node. -/
theorem not_revisits (h : Nearer graph g n els tokens) (hg : g.NotLeftRecursive) (hels : els ≠ []) :
    revisitsIn graph n 0 els = false := by
  obtain ⟨frames, rules, hopened⟩ := h.opened
  obtain ⟨c, s, hahead, hleast, hvisited⟩ := h.ahead
  refine hopened.not_revisits hels hg (fun hmem => ?_) fun rule ident stop hk => ?_
  · obtain ⟨bound, hbound, hless⟩ := hvisited n hmem
    exact absurd (hbound c s hahead) (not_le.mpr hless)
  · cases hahead with
    | done =>
      rw [Graph.kind_rootEnd hopened.placed.base_le] at hk
      exact absurd hk nofun
    | hop hplain =>
      rw [hk] at hplain
      exact absurd hplain nofun
    | take hk' =>
      rw [hk] at hk'
      exact absurd hk' nofun
    | call hk' _ hrest =>
      rw [hk] at hk'
      obtain ⟨rfl, rfl, rfl⟩ := NodeKind.ruleStart.inj hk'
      obtain ⟨f, fs, rfl, hholds⟩ := hopened.placed.holds_tip
      obtain ⟨hlo, hhi, -⟩ := hopened.placed.nested.region.stops _ _ _ _ hholds.1 hholds.2 hk
      exact hrest.walksOut hopened.placed.nested ⟨hlo, hhi⟩

/-- The path goes on from the node, once a slot took its token. -/
theorem guided (h : Nearer graph g n els tokens) :
    ((graph.kind n).isSlot = false ∧ Guided graph g ⟨n, none⟩ els tokens) ∨
      ∃ type ident hook t rest, graph.kind n = .slot type ident hook ∧ tokens = t :: rest ∧
        t.hasType type.id = true ∧ Guided graph g ⟨n, some t⟩ els rest := by
  obtain ⟨frames, rules, hopened⟩ := h.opened
  obtain ⟨c, s, hahead, hleast, hvisited⟩ := h.ahead
  cases hslot : (graph.kind n).isSlot with
  | false =>
    refine .inl ⟨rfl, h.wellFormed, h.regular, ⟨frames, rules, hopened⟩, fun hslot' => ?_, c, s,
      hahead, ?_⟩
    · exact absurd (hslot.symm.trans hslot') nofun
    · rw [visited_cons_none]
      refine List.forall_mem_cons.mpr ⟨hleast, fun m hm c' s' hahead' => ?_⟩
      obtain ⟨bound, hbound, hless⟩ := hvisited m hm
      exact le_trans (le_of_lt hless) (hbound c' s' hahead')
  | true =>
    cases hahead with
    | done =>
      rw [Graph.kind_rootEnd hopened.placed.base_le] at hslot
      exact absurd hslot nofun
    | hop _ hwaits => exact absurd (hwaits hslot) nofun
    | call hk =>
      rw [hk] at hslot
      exact absurd hslot nofun
    | @take _ type ident hook t rest c s hk htype hrest =>
      refine .inr ⟨type, ident, hook, t, rest, hk, rfl, htype, h.wellFormed, h.regular,
        ⟨frames, [], hopened.take hk t⟩, fun _ => rfl, c, s, hrest, fun m hm => ?_⟩
      exact absurd hm List.not_mem_nil

end Nearer

/-- The path stands on its end, or there is a step that brings it nearer. -/
theorem Guided.step (h : Guided a g e els tokens) (hg : g.Regular) (ctx : Context) :
    (e.node = Graph.rootEnd ∧ tokens = []) ∨
      ∃ next b n, a.successors g e.node ctx = (some next, b) ∧ n ∈ next ∧
      Nearer b g n (e :: els) tokens := by
  obtain ⟨frames, rules, hopened⟩ := h.opened
  obtain ⟨c, s, hahead, hleast⟩ := h.ahead
  have hlt := hopened.placed.lt_size_of_mem
  have hnearer : ∀ {next b n c' s'}, a.successors g e.node ctx = (some next, b) → n ∈ next →
      Ahead b g ⟨n, none⟩ tokens c' s' → toLex (c', s') < toLex (c, s) →
      Nearer b g n (e :: els) tokens := by
    intro next b n c' s' hsucc hn hahead' hless
    have hleaves := Graph.leaves_of_successors hsucc
    obtain ⟨c'', s'', hahead'', hle, hleast'⟩ := exists_least hahead'
    refine ⟨hleaves.wellFormed h.wellFormed, hleaves.regular hg h.regular,
      hopened.step hg h.wellFormed h.waits hleaves hn, c'', s'', hahead'', hleast', fun m hm => ?_⟩
    exact ⟨toLex (c, s), (hleast m hm).of_le hleaves.le h.wellFormed
      (lt_size_of_mem_visited hlt hm), lt_of_le_of_lt hle hless⟩
  cases hahead with
  | done => exact .inl ⟨rfl, rfl⟩
  | @hop _ m _ c s hplain _ hm hrest =>
    have hsucc := Graph.successors_of_isPlain g hplain ctx
    exact .inr ⟨_, _, m, hsucc, hm,
      hnearer hsucc hm hrest (Prod.Lex.toLex_lt_toLex.mpr (.inr ⟨rfl, Nat.lt_succ_self s⟩))⟩
  | take hk =>
    have hwaits := h.waits (by rw [hk]; rfl)
    exact absurd hwaits nofun
  | @call n rule ident stop ds tokens c s hk hgenerates hrest =>
    cases hgenerates with
    | @node _ _ _ p hexpand hword hds =>
      have hsucc : a.successors g n ctx = (some [a.size], (a.addBody (.ofPiece p) stop).2) := by
        unfold Graph.successors
        simp only [hk, hexpand]
        rfl
      obtain ⟨q, hq, hbody⟩ := hg rule _ hexpand
      obtain ⟨hpart, -⟩ := List.cons.inj (congrFun hbody ctx)
      obtain rfl := Clause.part.inj hpart
      have hleaves := Graph.leaves_of_successors hsucc
      -- The derivation of the instance leads through the fresh body.
      obtain ⟨N, hwalk⟩ := ((Graph.bodyOf_addBody hq (le_refl _)).exists_walk_iff
        (h.wellFormed.stop_lt _ _ _ _ hk)).mpr hword
      obtain ⟨s', hrest'⟩ :=
        (hrest.of_le hleaves.le).of_walk (hleaves.regular hg h.regular) hwalk rfl hds
      exact .inr
        ⟨_, _, a.size, hsucc, List.mem_singleton_self _, hnearer hsucc (List.mem_singleton_self _)
        hrest' (Prod.Lex.toLex_lt_toLex.mpr (.inl (Nat.lt_succ_self _)))⟩

end Path

/-! ## The enumeration -/

namespace Search

variable {g : Grammar} {s : Search} {tokens : List Token} {n : NodeId} {ns : List NodeId}
  {els : List PathElement} {tip : PathElement} {kept : Option Graph}
  {visit : List Token → Search → Option Answer}

/-- Where all attempts are in vain each of them is, in an arena that the earlier ones left. -/
theorem exists_attempt {R : Graph → Graph → Prop} (hrefl : ∀ a, R a a)
    (htrans : ∀ {a b c}, R a b → R b c → R a c)
    (hv : ∀ tokens s answer, visit tokens s = some answer → R s.graph (answer.arena s.graph))
    (h : attemptEach g tokens visit ns s = some (.nothing kept)) (hn : n ∈ ns) :
    ∃ graph kept, R s.graph graph ∧
      attempt g tokens visit { s with graph } n = some (.nothing kept) := by
  induction ns generalizing s kept with
  | nil => exact absurd hn List.not_mem_nil
  | cons m ns ih =>
    rw [attemptEach] at h
    split at h
    · next kept' hattempt =>
      rcases List.mem_cons.mp hn with rfl | hn
      · exact ⟨s.graph, kept', hrefl _, hattempt⟩
      · obtain ⟨inner, hinner, hkept⟩ := Option.map_eq_some_iff.mp h
        cases inner with
        | found => cases hkept
        | nothing =>
          obtain ⟨graph, kept'', hR, hattempt'⟩ := ih hinner hn
          exact ⟨graph, kept'', htrans (arena_attempt hrefl hv hattempt) hR, hattempt'⟩
    · next hnothing => exact absurd h (hnothing kept)

/-- How an enumeration changes the arena. -/
structure Extends (a b : Graph) : Prop where
  le : a ≤ b
  wellFormed : a.WellFormed → b.WellFormed
  regular : a.Regular → b.Regular

theorem Extends.refl (a : Graph) : Extends a a := ⟨le_refl a, id, id⟩

theorem Extends.trans {a b c : Graph} (h : Extends a b) (h' : Extends b c) : Extends a c :=
  ⟨le_trans h.le h'.le, h'.wellFormed ∘ h.wellFormed, h'.regular ∘ h.regular⟩

/-- The enumeration is not in vain while a step brings the path nearer to the end. -/
theorem explore_ne_nothing (hg : g.Regular) (hrec : g.NotLeftRecursive) :
    ∀ {fuel : Nat} {tokens : List Token} {s : Search} {tip : PathElement} {els : List PathElement}
    {kept : Option Graph}, s.path.elements = tip :: els →
    Path.Guided s.graph g tip els tokens → explore g fuel tokens s ≠ some (.nothing kept)
  | 0, _, _, _, _, _, _, _ => by simp [explore]
  | fuel + 1, tokens, s, tip, els, kept, hels, hguided => by
    intro h
    rw [explore, tip?_eq hels] at h
    rcases hguided.step hg ⟨s.path, tokens.head?⟩ with ⟨hroot, rfl⟩ |
      ⟨next, b, n, hsucc, hn, hnearer⟩
    · obtain ⟨frames, rules, hopened⟩ := hguided.opened
      have hbase := hopened.placed.base_le
      have hk := Graph.kind_rootEnd hbase
      have hwired : s.graph.wired Graph.rootEnd = [] := by
        have htargets := Graph.targets_rootEnd hbase
        rwa [Graph.targets, hk] at htargets
      have hsucc :=
        Graph.successors_of_isPlain g (by rw [hk]; rfl) ⟨s.path, ([] : List Token).head?⟩
      simp only [hroot, hsucc, hwired, hk, NodeKind.isRuleEnd] at h
      cases h
    · simp only [hsucc] at h
      split at h
      · cases h
      · have hleaves : ∀ {a id ctx next b}, a.successors g id ctx = (some next, b) →
            Extends a b := fun hsucc =>
          have hleaves := Graph.leaves_of_successors hsucc
          ⟨hleaves.le, hleaves.wellFormed, hleaves.regular hg⟩
        obtain ⟨graph, kept', hextends, hattempt⟩ := exists_attempt Extends.refl Extends.trans
          (fun _ _ _ hvisit => arena_explore_of Extends.refl Extends.trans hleaves hvisit) h hn
        have hnearer' := hnearer.of_le hextends.le (hextends.wellFormed hnearer.wellFormed)
          (hextends.regular hnearer.regular)
        have hrev : s.path.revisits graph n = false := by
          rw [Path.revisits, hels]
          exact hnearer'.not_revisits hrec (List.cons_ne_nil _ _)
        rw [attempt_of_not_revisits (s := { s with graph }) hrev] at hattempt
        rcases hnearer'.guided with ⟨hslot, hguided'⟩ |
          ⟨type, ident, hook, t, rest, hk, rfl, htype, hguided'⟩
        · have hvisit : explore g fuel tokens (Search.push g { s with graph } n none) =
              some (.nothing kept') := by
            cases hk : graph.kind n with
            | slot =>
              rw [hk] at hslot
              cases hslot
            | _ => simpa only [hk] using hattempt
          refine explore_ne_nothing hg hrec ?_ hguided' hvisit
          rw [elements_push, hels]
        · simp only [hk, htype, if_true] at hattempt
          obtain ⟨inner, hinner, hkept⟩ := Option.map_eq_some_iff.mp hattempt
          cases inner with
          | found => cases hkept
          | nothing =>
            refine explore_ne_nothing hg hrec ?_ hguided' hinner
            rw [elements_push, hels]

/-- The path at the start leads to the end if the tokens are those of an
instance of the root rule. -/
theorem guided_start {ds : List Derivation} (h : g.Generates (.node g.root g.ident ds)) :
    Path.Guided (start g).graph g ⟨Graph.root, none⟩ [] (Derivation.tokensOfAll ds) := by
  have hbase : .ofGrammar g ≤ (start g).graph := le_refl (Graph.ofGrammar g)
  have hk := Graph.kind_root hbase
  have hahead :
      Path.Ahead (start g).graph g ⟨Graph.root, none⟩ (Derivation.tokensOfAll ds ++ []) _ _ :=
    .call hk h .done
  rw [List.append_nil] at hahead
  obtain ⟨c, s, hahead, -, hleast⟩ := Path.exists_least hahead
  refine ⟨Graph.wellFormed_ofGrammar g, Graph.regular_ofGrammar g,
    ⟨_, [], .root hbase, ?_, trivial⟩, ?_, c, s, hahead, ?_⟩
  · rw [Path.openSince_of_not_isRuleEnd (by rw [hk]; rfl), Path.openSince]
  · rw [hk]
    simp [NodeKind.isSlot]
  · rw [Path.visited_cons_none]
    exact List.forall_mem_cons.mpr ⟨hleast, fun m hm => absurd hm List.not_mem_nil⟩

end Search

namespace Parser

variable {p : Parser} {text : List Char} {source : Option String} {tokens : List Token}

/-- With full backtracking a regular grammar without left recursion accepts what it generates. -/
theorem accepts_of_generates (hfull : p.fullBacktracking = true) (hg : p.grammar.Regular)
    (hrec : p.grammar.NotLeftRecursive) (htokens : p.lexer.tokenizeFrom text source = .ok tokens)
    {d : Derivation} (hd : p.grammar.Generates d)
    (hroot : d.label = .rule p.grammar.root p.grammar.ident) (hyield : d.tokens = tokens) :
    ∃ bound s, ∀ fuel, bound ≤ fuel → p.searchWithin fuel text source = some (.ok s) := by
  have hstart : p.Reaches text source (p.start text source) := .refl
  obtain ⟨enough, result, hresult⟩ := exists_bound hg.endsApart text source
  have hahead : ((p.start text source).stream.results p.lexer).1 = tokens.map .ok :=
    mapM_id_eq_ok.mp htokens
  obtain ⟨answer, ha, hleads⟩ := completes_of_iterate (hooksRevert_of_regular hg) hstart hahead
    (.inl hfull) (hresult enough (le_refl _))
  obtain ⟨bound, hexplore⟩ := ha.explores rfl
  cases result with
  | ok s => exact ⟨enough, s, hresult⟩
  | error e =>
    cases answer with
    | found s => exact absurd hleads nofun
    | nothing kept =>
      cases d with
      | leaf => exact absurd hroot nofun
      | node rule ident ds =>
        obtain ⟨rfl, rfl⟩ := Label.rule.inj hroot
        exact absurd (hexplore bound (le_refl _))
          (Search.explore_ne_nothing hg hrec rfl (hyield ▸ Search.guided_start hd))

end Parser

/-! ## Definitions -/

namespace Definition

variable {d : Definition} {g : Grammar} {s : Symbols}

/-- What the atom asks for can do without tokens. -/
def Nullable (d : Definition) (a : Atom) : Prop := ∃ t, d.Fits a t ∧ t.tokens = []

/-- In a word of a branch of the first rule the second rule is behind nothing but
what can do without tokens. -/
def Begins (d : Definition) (name name' : String) : Prop :=
  ∃ decl ∈ d.rules, decl.name = name ∧ ∃ branch ∈ decl.branches, ∃ u ident v,
    u ++ ⟨ident, .rule name'⟩ :: v ∈ (Item.exprOfBranch branch).matches' ∧ ∀ a ∈ u, d.Nullable a

/-- No rule can reach itself through references with nothing in front but what can do without
tokens. -/
def NotLeftRecursive (d : Definition) : Prop := ∀ name, ¬Relation.TransGen d.Begins name name

namespace Compiled

theorem nullable (h : d.Compiled g s) {a : Atom} {l : Label} (hlabel : s.Labels a l)
    (hl : g.Nullable l) : d.Nullable a := by
  obtain ⟨t, ht, rfl, htokens⟩ := hl
  exact ⟨t.parseTree g, h.fits_of_generates ht a hlabel, by
    rw [Derivation.tokens_parseTree, htokens]⟩

theorem begins (h : d.Compiled g s) {rule rule' : RuleId} (hbegins : g.Begins rule rule') :
    d.Begins (g.ruleName rule) (g.ruleName rule') := by
  obtain ⟨p, u, ident, v, hexpand, hword, hu⟩ := hbegins
  obtain ⟨rule₀, hrule, -⟩ := Option.bind_eq_some_iff.mp hexpand
  obtain ⟨decl, hdecl⟩ := h.exists_decl hrule
  obtain ⟨hname, hrelates⟩ := h.relates_expand hdecl hexpand
  obtain ⟨word, hbranches, hlabels⟩ := hrelates.covered _ hword
  obtain ⟨branch, hbranch, hatoms⟩ := Item.mem_exprOfBranches.mp hbranches
  have hfront := List.forall₂_take_append word u _ hlabels.flip
  have hbehind := List.forall₂_drop_append word u _ hlabels.flip
  obtain ⟨a, v', ha, -, hdrop⟩ := List.forall₂_cons_right_iff.mp hbehind
  have hnullable : List.Forall₂ (fun a l => d.Nullable a ∧ s.Labels a l) (word.take u.length) u :=
    ((List.forall₂_and_left _ _).mpr ⟨hu, hfront.flip⟩).flip.imp fun a l hal =>
      ⟨h.nullable hal.2 hal.1, hal.2⟩
  rw [← List.take_append_drop u.length word, hdrop] at hatoms
  rcases h.cases_label ha with ⟨type, -, hl⟩ | ⟨decl', id, htarget, hl, hdecl'⟩
  · exact absurd hl nofun
  · obtain ⟨rfl, rfl⟩ := Label.rule.inj hl
    obtain ⟨p', hp', -⟩ := h.exists_expand hdecl'
    obtain ⟨ident, target⟩ := a
    dsimp only at htarget
    subst htarget
    rw [hname, (rule_eqs hp').2]
    exact ⟨decl, List.mem_of_getElem? hdecl, rfl, branch, hbranch, _, ident, v', hatoms,
      ((List.forall₂_and_left _ _).mp hnullable).1⟩

theorem notLeftRecursive (h : d.Compiled g s) (hd : d.NotLeftRecursive) : g.NotLeftRecursive :=
  fun _ hrule => hd _ (hrule.lift g.ruleName fun _ _ hbegins => h.begins hbegins)

end Compiled

end Definition

namespace Parser

variable {p : Parser} {d : Definition} {text : List Char} {source : Option String}
  {tokens : List Token} {a : Atom} {t : Tree}

/-- With full backtracking the parser for a definition without left recursion accepts every text
whose tokens are the leaves of a tree of the root rule. -/
theorem accepts_of_fits (hg : d.grammar = .ok p.grammar) (hfull : p.fullBacktracking = true)
    (hrec : d.NotLeftRecursive) (htokens : p.lexer.tokenizeFrom text source = .ok tokens)
    (ha : d.Root a) (ht : d.Fits a t) (hleaves : t.tokens = tokens) :
    ∃ bound t', ∀ fuel, bound ≤ fuel → p.parseWithin fuel text source = some (.ok t') := by
  obtain ⟨symbols, hcompiled⟩ := Definition.exists_compiled hg
  obtain ⟨u, hu, hlabel, rfl⟩ := hcompiled.exists_generates ht
  rw [Derivation.tokens_parseTree] at hleaves
  obtain ⟨decl, hfilter, rfl⟩ := ha
  obtain ⟨decl', hfilter', hnumber⟩ := hcompiled.root
  obtain rfl := (List.cons.inj (hfilter.symm.trans hfilter')).1
  have hroot : u.label = .rule p.grammar.root p.grammar.ident := by
    simp only [Symbols.Labels, Symbols.label?, hnumber, Option.map_some,
      Option.some.injEq] at hlabel
    rw [← hlabel, hcompiled.ident]
  obtain ⟨bound, s, hsearch⟩ := accepts_of_generates hfull hcompiled.regular
    (hcompiled.notLeftRecursive hrec) htokens hu hroot hleaves
  exact ⟨bound, p.treeOf s, fun fuel hfuel => by rw [parseWithin, hsearch fuel hfuel]; rfl⟩

end Parser

namespace Sample.Nests

/-- Any number of entries, and each of them can be missing. -/
def listBranch : Branch :=
  [.group none [[.single none (.rule "entry") (some .zeroOrOne)]] (some .zeroOrMore)]

/-- A list between two words. -/
def entryBranch : Branch :=
  [.single none (.token "OPEN") none, .single none (.rule "list") none,
    .single none (.token "CLOSE") none]

def definition : Definition where
  tokens := [⟨"OPEN", .keyword "begin" true⟩, ⟨"CLOSE", .keyword "end" true⟩]
  rules := [⟨"list", true, [listBranch]⟩, ⟨"entry", false, [entryBranch]⟩]

def opening : TokenType := ⟨1, .keyword "begin" true⟩
def closing : TokenType := ⟨2, .keyword "end" true⟩

def grammar : Grammar :=
  { types := ⟨[opening, closing]⟩
    rules := [
      { name := "list",
        expand := some fun _ => .ofPiece (.sequence [.many (.sequence [.optional (.rule 1)])]) },
      { name := "entry"
        expand := some fun _ => .ofPiece (.sequence [.token opening, .rule 0, .token closing]) }]
    root := 0, ident := none }

theorem grammar_definition : definition.grammar = .ok grammar := by rfl

def parser : Parser := { Parser.ofGrammar grammar with fullBacktracking := true }

def text : List Char := "begin begin end end".toList

/-- A list begins with nothing but entries. -/
theorem eq_entry_of_begins_list {name : String} (h : definition.Begins "list" name) :
    name = "entry" := by
  obtain ⟨decl, hdecl, hname, branch, hbranch, u, ident, v, hword, -⟩ := h
  simp only [definition, List.mem_cons, List.not_mem_nil, or_false] at hdecl
  rcases hdecl with rfl | rfl
  · obtain rfl := List.mem_singleton.mp hbranch
    simp only [listBranch, Item.exprOfBranch, Item.expr, Item.exprOfBranches, Item.repeatedExpr,
      Multiplicity.expr, RegularExpression.matches'_mul, RegularExpression.matches'_star,
      RegularExpression.matches'_add, RegularExpression.matches'_char,
      RegularExpression.matches'_epsilon, RegularExpression.matches'_zero, mul_one,
      add_zero] at hword
    obtain ⟨us, hus, hall⟩ := Language.mem_kstar.mp hword
    have hmem : (⟨ident, .rule name⟩ : Atom) ∈ us.flatten := by
      rw [← hus]
      exact List.mem_append_right _ List.mem_cons_self
    obtain ⟨w, hw, hmem⟩ := List.mem_flatten.mp hmem
    rcases hall w hw with rfl | rfl
    · exact absurd hmem List.not_mem_nil
    · exact Target.rule.inj (Atom.mk.inj (List.mem_singleton.mp hmem)).2
  · exact absurd hname (by decide)

/-- An entry begins with a token. -/
theorem not_begins_entry {name : String} : ¬definition.Begins "entry" name := by
  rintro ⟨decl, hdecl, hname, branch, hbranch, u, ident, v, hword, hu⟩
  simp only [definition, List.mem_cons, List.not_mem_nil, or_false] at hdecl
  rcases hdecl with rfl | rfl
  · exact absurd hname (by decide)
  · obtain rfl := List.mem_singleton.mp hbranch
    simp only [entryBranch, Item.exprOfBranch, Item.expr, Item.repeatedExpr,
      RegularExpression.matches'_mul, RegularExpression.matches'_char] at hword
    obtain ⟨w, rfl, w', -, heq⟩ := Language.mem_mul.mp hword
    cases u with
    | nil => exact absurd (List.cons.inj heq).1 (by simp)
    | cons a u =>
      obtain ⟨rfl, -⟩ := List.cons.inj heq
      obtain ⟨t, ht, htokens⟩ := hu _ List.mem_cons_self
      cases ht with
      | token => cases htokens

theorem notLeftRecursive : definition.NotLeftRecursive := by
  intro name h
  obtain ⟨name', hbegins, -⟩ := Relation.TransGen.head'_iff.mp h
  obtain ⟨name'', -, hbegins'⟩ := Relation.TransGen.tail'_iff.mp h
  have hrules : ∀ {name name'}, definition.Begins name name' → name = "list" := by
    rintro name name' ⟨decl, hdecl, rfl, hrest⟩
    simp only [definition, List.mem_cons, List.not_mem_nil, or_false] at hdecl
    rcases hdecl with rfl | rfl
    · rfl
    · exact absurd ⟨_, by simp [definition], rfl, hrest⟩ not_begins_entry
  obtain rfl := hrules hbegins
  obtain rfl := hrules hbegins'
  exact absurd (eq_entry_of_begins_list hbegins') (by decide)

theorem fits_list {entries : List Tree}
    (h : ∀ e ∈ entries, definition.Fits ⟨none, .rule "entry"⟩ e) :
    definition.Fits ⟨none, .rule "list"⟩ ⟨"list", "", "", entries, none⟩ := by
  have hdecl : (⟨"list", true, [listBranch]⟩ : RuleDecl) ∈ definition.rules := List.mem_cons_self
  have hword : List.replicate entries.length ⟨none, .rule "entry"⟩ ∈
      (Item.exprOfBranch listBranch).matches' := by
    simp only [listBranch, Item.exprOfBranch, Item.expr, Item.exprOfBranches, Item.repeatedExpr,
      Multiplicity.expr, RegularExpression.matches'_mul, RegularExpression.matches'_star,
      RegularExpression.matches'_add, RegularExpression.matches'_char,
      RegularExpression.matches'_epsilon, RegularExpression.matches'_zero, mul_one, add_zero]
    refine Language.mem_kstar.mpr ⟨List.replicate entries.length [⟨none, .rule "entry"⟩], ?_,
      fun w hw => ?_⟩
    · rw [List.flatten_replicate_singleton]
    · obtain rfl := List.eq_of_mem_replicate hw
      exact .inr rfl
  refine .node hdecl (List.mem_singleton_self _) hword List.length_replicate ?_
  rintro ⟨a, e⟩ hmem
  obtain ⟨ha, he⟩ := List.of_mem_zip hmem
  obtain rfl := List.eq_of_mem_replicate ha
  exact h e he

theorem fits_entry {o c : Token} {list : Tree} (ho : o.hasType opening.id = true)
    (hc : c.hasType closing.id = true) (h : definition.Fits ⟨none, .rule "list"⟩ list) :
    definition.Fits ⟨none, .rule "entry"⟩ ⟨"entry", "", "", [.ofToken o "", list, .ofToken c ""],
      none⟩ := by
  have hdecl : (⟨"entry", false, [entryBranch]⟩ : RuleDecl) ∈ definition.rules :=
    List.mem_cons_of_mem _ List.mem_cons_self
  have hword : [⟨none, .token "OPEN"⟩, ⟨none, .rule "list"⟩, ⟨none, .token "CLOSE"⟩] ∈
      (Item.exprOfBranch entryBranch).matches' := by
    simp only [entryBranch, Item.exprOfBranch, Item.expr, Item.repeatedExpr,
      RegularExpression.matches'_mul, RegularExpression.matches'_char,
      RegularExpression.matches'_epsilon, mul_one]
    exact Language.mem_mul.mpr ⟨_, rfl, _, Language.mem_mul.mpr ⟨_, rfl, _, rfl, rfl⟩, rfl⟩
  have hopening : definition.type? (.token "OPEN") = some opening := rfl
  have hclosing : definition.type? (.token "CLOSE") = some closing := rfl
  refine .node hdecl (List.mem_singleton_self _) hword rfl ?_
  rintro ⟨a, e⟩ hmem
  simp only [List.zip_cons_cons, List.zip_nil_left, List.mem_cons, Prod.mk.injEq, List.not_mem_nil,
    or_false] at hmem
  rcases hmem with ⟨rfl, rfl⟩ | ⟨rfl, rfl⟩ | ⟨rfl, rfl⟩
  · exact .token hopening ho
  · exact h
  · exact .token hclosing hc

/-- Two brackets that open and two that close. -/
def isNest : List Token → Bool
  | [o, o', c', c] =>
    o.hasType opening.id && o'.hasType opening.id && c'.hasType closing.id && c.hasType closing.id
  | _ => false

/-- An entry within an entry. -/
theorem accepts_of_fits_nests :
    ∃ tokens t, definition.grammar = .ok parser.grammar ∧
      definition.NotLeftRecursive ∧ parser.lexer.tokenizeFrom text none = .ok tokens ∧
      definition.Fits ⟨none, .rule "list"⟩ t ∧ t.tokens = tokens ∧
      ∃ bound t', ∀ fuel, bound ≤ fuel → parser.parseWithin fuel text none = some (.ok t') := by
  have hlex : (parser.lexer.tokenizeFrom text none).toOption.any isNest = true := by decide +kernel
  cases htokens : parser.lexer.tokenizeFrom text none with
  | error e =>
    rw [htokens] at hlex
    cases hlex
  | ok tokens =>
    rw [htokens, Except.toOption, Option.any_some] at hlex
    unfold isNest at hlex
    split at hlex
    · next o o' c' c =>
      simp only [Bool.and_eq_true] at hlex
      obtain ⟨⟨⟨ho, ho'⟩, hc'⟩, hc⟩ := hlex
      have hempty := fits_list fun e he => absurd he List.not_mem_nil
      have hinner := fits_list fun e he => List.mem_singleton.mp he ▸ fits_entry ho' hc' hempty
      have houter := fits_list fun e he => List.mem_singleton.mp he ▸ fits_entry ho hc hinner
      exact ⟨_, _, grammar_definition, notLeftRecursive, rfl, houter, rfl,
        Parser.accepts_of_fits (p := parser) grammar_definition rfl notLeftRecursive htokens
        ⟨_, rfl, rfl⟩ houter rfl⟩
    · cases hlex

end Sample.Nests

end GrammarGraph
