import GrammarGraph.Proofs.Rivals
import GrammarGraph.Proofs.Templates

/-!
# Searches through gates, switches and hooks

Where a descent leaves a node for one that does not fail it turns to that node (`Search.Turns`), be
it linked, behind a gate that holds, or the branch of a switch.  What the search has come to on the
way is told by the nodes that are open and by the scopes (`Search.Footing`).  In an instance of a
body both are followed from node to node of its template (`Search.Standing`).
-/

namespace GrammarGraph

/-- Stepping onto the node changes neither the scopes nor the tree. -/
def NodeKind.isSilent : NodeKind → Bool
  | junction | gate .. | switch .. => true
  | _ => false

theorem NodeKind.startedRule?_of_isSilent {k : NodeKind} (h : k.isSilent = true) :
    k.startedRule? = none := by
  cases k <;> first | rfl | exact absurd h nofun

@[simp] theorem NodeKind.isSilent_moved (k : Nat) (kind : NodeKind) :
    (kind.moved k).isSilent = kind.isSilent := by
  cases kind <;> rfl

@[simp] theorem NodeKind.isPlain_moved (k : Nat) (kind : NodeKind) :
    (kind.moved k).isPlain = kind.isPlain := by
  cases kind <;> rfl

@[simp] theorem NodeKind.isSlot_moved (k : Nat) (kind : NodeKind) :
    (kind.moved k).isSlot = kind.isSlot := by
  cases kind <;> rfl

namespace Search

variable {g : Grammar} {full : Bool} {P : Search → Prop} {graph b : Graph} {els : List PathElement}
  {e : PathElement} {m n : NodeId} {t : Token} {token : Option Token} {tokens rest : List Token}
  {before behind : List NodeId} {branches : List (String × NodeId)} {target : NodeId}
  {guard : Context → Bool} {key : String}

/-! ## Turning to a node -/

/-- The tip is left for the node, since those in front of it are dead ends. -/
structure Turns (g : Grammar) (graph : Graph) (els : List PathElement) (token : Option Token)
    (n : NodeId) : Prop where
  expected : (ofElements graph g els).expected? = none
  leads : ∃ tip before behind, els.head? = some tip ∧
    graph.successors g tip.node ⟨(ofElements graph g els).path, token⟩ = (some (before ++ n ::
      behind), graph) ∧ ∀ m ∈ before, Fails g token (ofElements graph g (⟨m, none⟩ :: els))

theorem turns_wired (hleft : Left graph e) (hwired : graph.wired e.node = before ++ n :: behind)
    (hbefore : ∀ m ∈ before, Fails g token (ofElements graph g (⟨m, none⟩ :: e :: els))) :
    Turns g graph (e :: els) token n where
  expected := expected?_of_left hleft
  leads := ⟨e, before, behind, rfl, by rw [Graph.successors_of_isPlain g hleft.1, hwired], hbefore⟩

theorem expected?_of_not_isSlot (h : (graph.kind e.node).isSlot = false) :
    (ofElements graph g (e :: els)).expected? = none := by
  rw [expected?, tip?_eq (elements_ofElements graph g _), Option.bind_some, graph_ofElements]
  split
  · next hk _ =>
    rw [hk] at h
    cases h
  · rfl

/-- A gate that holds leads to its target. -/
theorem turns_gate (hk : graph.kind e.node = .gate guard n)
    (hguard : guard ⟨(ofElements graph g (e :: els)).path, token⟩ = true) :
    Turns g graph (e :: els) token n where
  expected := expected?_of_not_isSlot (by rw [hk]; rfl)
  leads := by
    refine ⟨e, [], [], rfl, ?_, fun _ h => absurd h List.not_mem_nil⟩
    rw [Graph.successors, hk]
    simp only [hguard, if_true, List.nil_append]

/-- A switch leads to the branch of the keyword. -/
theorem turns_switch (hk : graph.kind e.node = .switch branches target)
    (hkey : token.bind (·.keyword?) = some key) (hlookup : branches.lookup key = some n) :
    Turns g graph (e :: els) token n where
  expected := expected?_of_not_isSlot (by rw [hk]; rfl)
  leads := by
    refine ⟨e, [], [], rfl, ?_, fun _ h => absurd h List.not_mem_nil⟩
    rw [Graph.successors, hk]
    simp only [Context.keyword?, hkey, Option.bind_some, hlookup, Option.toList_some,
      List.nil_append]

theorem Proceeds.turn (hturns : Turns g graph els tokens.head? n)
    (hn : Path.revisitsIn graph n 0 els = false)
    (h : Proceeds g full P graph (⟨n, none⟩ :: els) tokens) :
    Proceeds g full P graph els tokens := by
  obtain ⟨hexpected, tip, before, behind, htip, hsucc, hbefore⟩ := hturns
  refine h.of_arrives fun s' harrives => ?_
  have htip' : (ofElements graph g els).path.tip? = some tip := by
    rw [Path.tip?, elements_ofElements, htip]
  exact .step htip' hexpected hsucc (fun m hm _ => hbefore m hm)
    (barred_eq_false hn harrives) harrives

theorem not_revisits_ruleEnd {rule : RuleId} {ident : Option String}
    (hk : graph.kind n = .ruleEnd rule ident) (hn : n ∉ Path.visited els) :
    Path.revisitsIn graph n 0 els = false := by
  refine Path.not_revisits hn (fun rule hrule => ?_) 0
  rw [hk] at hrule
  cases hrule

/-- A switch without a branch for the coming token is a dead end. -/
theorem dead_switch (hk : graph.kind n = .switch branches target)
    (h : (token.bind (·.keyword?)).bind (branches.lookup ·) = none) : Dead g token graph n := by
  intro b hle els _
  have hn : n < graph.size := Graph.lt_size_of_kind_ne (by rw [hk]; exact nofun)
  have hkb : b.kind n = .switch branches target := by rw [Graph.kind_of_le hle hn, hk]
  have hsucc :
      b.successors g n ⟨(ofElements b g (⟨n, none⟩ :: els)).path, token⟩ = (some [], b) := by
    rw [Graph.successors, hkb]
    simp only [Context.keyword?, h, Option.toList_none]
  have hexpected : (ofElements b g (⟨n, none⟩ :: els)).expected? = none :=
    expected?_of_not_isSlot (by rw [hkb]; rfl)
  refine .exhausted (tip?_eq (elements_ofElements b g _)) hexpected hsucc (fun _ => ?_) fun _ hm =>
    absurd hm List.not_mem_nil
  rw [graph_ofElements, hkb]
  exact Bool.and_false _

/-! ## What the search has come to -/

/-- The nodes that reducing the path leaves open, however the arena grows, and the scopes behind
it. -/
structure Footing (g : Grammar) (kind : TreeKind) (graph : Graph) (els : List PathElement)
    (opened : List Tree) (scopes : List Scope) : Prop where
  lt : ∀ e ∈ els, e.node < graph.size
  opens : ∀ b, graph ≤ b → Tree.Opens g b kind els opened
  scopes : (ofElements graph g els).path.scopes = scopes

namespace Footing

variable {kind : TreeKind} {opened outer : List Tree} {top parent : Tree} {scopes : List Scope}
  {type : TokenType} {ident : Option String} {hook : Option Hook} {rule : RuleId} {stop : NodeId}

theorem of_le (h : Footing g kind graph els opened scopes) (hle : graph ≤ b) :
    Footing g kind b els opened scopes where
  lt e he := lt_of_lt_of_le (h.lt e he) hle.1
  opens c hc := h.opens c (le_trans hle hc)
  scopes := by
    rw [ofElements, Path.replay_of_le hle h.lt]
    exact h.scopes

theorem pass (h : Footing g kind graph els opened scopes) (hn : n < graph.size)
    (hk : (graph.kind n).isSilent = true) :
    Footing g kind graph (⟨n, none⟩ :: els) opened scopes where
  lt := List.forall_mem_cons.mpr ⟨hn, h.lt⟩
  opens b hb := by
    refine (h.opens b hb).cons (fun rest => ?_) rfl (by simp)
    simp only [Tree.reduceFrom, Graph.kind_of_le hb hn]
    cases hkind : graph.kind n <;> rw [hkind] at hk <;> first | rfl | cases hk
  scopes := by
    simp only [ofElements_cons, push, Path.push, graph_ofElements]
    cases hkind : graph.kind n <;> rw [hkind] at hk <;> first | exact h.scopes | cases hk

/-- A slot that takes a token adds a leaf, and its hook, if it has one, changes
the innermost open scope. -/
theorem take (h : Footing g kind graph els (top :: outer) scopes)
    (hk : graph.kind n = .slot type ident hook) (t : Token) :
    Footing g kind graph (⟨n, some t⟩ :: els) (top.addChild (.ofToken t (ident.getD "")) ::
      outer) (hook.elim scopes fun hook => Scope.update (hook.apply · t) 0 scopes) where
  lt := List.forall_mem_cons.mpr ⟨Graph.lt_size_of_isSlot (by rw [hk]; rfl), h.lt⟩
  opens b hb := by
    refine (h.opens b hb).addChild _ (fun rest => ?_) (fun _ => rfl)
    rw [Tree.reduceFrom, Graph.kind_of_le hb (Graph.lt_size_of_isSlot (by rw [hk]; rfl)), hk]
  scopes := by
    simp only [ofElements_cons, push, Path.push, graph_ofElements, hk, ← h.scopes]
    cases hook <;> rfl

/-- The start of a rule opens a node and a scope. -/
theorem enter (h : Footing g kind graph els opened scopes)
    (hk : graph.kind n = .ruleStart rule ident stop) :
    Footing g kind graph (⟨n, none⟩ :: els) (⟨g.ruleName rule, "", ident.getD "", [], none⟩ ::
      opened) (.active (g.ruleVars rule) :: scopes) where
  lt := List.forall_mem_cons.mpr ⟨Graph.lt_size_of_startedRule (by rw [hk]; rfl), h.lt⟩
  opens b hb := by
    obtain ⟨top, outer, rfl⟩ := List.exists_cons_of_ne_nil (h.opens b hb).ne_nil
    refine (h.opens b hb).cons (fun rest => ?_) rfl (by simp [Tree.tokens, Tree.tokensOfAll])
    rw [Tree.reduceFrom, Graph.kind_of_le hb (Graph.lt_size_of_startedRule (by rw [hk]; rfl)), hk]
    rfl
  scopes := by
    simp only [ofElements_cons, push, Path.push, graph_ofElements, hk, h.scopes]

/-- Where a rule ends its node becomes a child of the node around it, and its scope is hidden. -/
theorem close (h : Footing g kind graph els (top :: parent :: outer) scopes)
    (hk : graph.kind n = .ruleEnd rule ident) : Footing g kind graph (⟨n, none⟩ :: els)
      (parent.addChild (top.transformed g kind rule) :: outer) (.exited :: scopes) where
  lt := List.forall_mem_cons.mpr ⟨Graph.lt_size_of_isRuleEnd (by rw [hk]; rfl), h.lt⟩
  opens b hb :=
    (h.opens b hb).close
      (by rw [Graph.kind_of_le hb (Graph.lt_size_of_isRuleEnd (by rw [hk]; rfl)), hk]) rfl
  scopes := by
    simp only [ofElements_cons, push, Path.push, graph_ofElements, hk, h.scopes]

end Footing

/-! ## Instances of a body -/

/-- An instance of a body: where its nodes begin, the template that they are a copy of,
and the node behind it. -/
structure Instance where
  base : Nat
  body : Graph
  stop : NodeId

/-- The path is in the instance.  Of the nodes of the instance it has visited only those of the list
since the last token. -/
structure Standing (g : Grammar) (kind : TreeKind) (site : Instance) (graph : Graph)
    (els : List PathElement) (seen : List Nat) (opened : List Tree) (scopes : List Scope) : Prop
    extends Footing g kind graph els opened scopes where
  holds : graph.Holds site.base site.body site.stop
  visited : ∀ m ∈ Path.visited els,
    m < site.base ∨ site.base + site.body.size ≤ m ∨ ∃ j ∈ seen, m = site.base + j

namespace Standing

variable {kind : TreeKind} {site : Instance} {seen links : List Nat} {opened outer : List Tree}
  {top : Tree} {scopes : List Scope} {i j : Nat} {node : Node} {type : TokenType}
  {ident : Option String} {hook : Option Hook}

theorem lt_size (h : Standing g kind site graph els seen opened scopes)
    (hj : site.body.nodes[j]? = some node) : site.base + j < graph.size :=
  lt_of_lt_of_le (Nat.add_lt_add_left (Array.getElem?_eq_some_iff.mp hj).1 site.base)
    h.holds.size_le

theorem not_revisits (h : Standing g kind site graph els seen opened scopes)
    (hj : site.body.nodes[j]? = some node) (hstart : node.kind.startedRule? = none)
    (hseen : j ∉ seen) :
    Path.revisitsIn graph (site.base + j) 0 els = false := by
  obtain ⟨hlt, -⟩ := Array.getElem?_eq_some_iff.mp hj
  refine Path.not_revisits (fun hmem => ?_) (fun rule hrule => ?_) 0
  · rcases h.visited _ hmem with hbelow | habove | ⟨i, hi, heq⟩
    · exact Nat.not_lt.mpr (Nat.le_add_right _ _) hbelow
    · exact Nat.not_le.mpr hlt (Nat.le_of_add_le_add_left habove)
    · exact hseen (Nat.add_left_cancel heq ▸ hi)
  · rw [h.holds.kind j node hj, NodeKind.startedRule?_moved, hstart] at hrule
    cases hrule

theorem pass (h : Standing g kind site graph els seen opened scopes)
    (hj : site.body.nodes[j]? = some node) (hsilent : node.kind.isSilent = true) :
    Standing g kind site graph (⟨site.base + j, none⟩ :: els) (j :: seen) opened scopes where
  toFooting := h.toFooting.pass (h.lt_size hj)
    (by rw [h.holds.kind j node hj, NodeKind.isSilent_moved, hsilent])
  holds := h.holds
  visited m hm := by
    rw [Path.visited_cons_none, List.mem_cons] at hm
    rcases hm with rfl | hm
    · exact .inr (.inr ⟨j, List.mem_cons_self, rfl⟩)
    · exact (h.visited m hm).imp_right
        (Or.imp_right fun ⟨i, hi, heq⟩ => ⟨i, List.mem_cons_of_mem _ hi, heq⟩)

theorem take (h : Standing g kind site graph els seen (top :: outer) scopes)
    (hj : site.body.nodes[j]? = some ⟨.slot type ident hook, links⟩) (t : Token) :
    Standing g kind site graph (⟨site.base + j, some t⟩ :: els) []
      (top.addChild (.ofToken t (ident.getD "")) :: outer)
      (hook.elim scopes fun hook => Scope.update (hook.apply · t) 0 scopes) where
  toFooting := h.toFooting.take (h.holds.kind j _ hj) t
  holds := h.holds
  visited m hm := by
    rw [Path.visited_cons_some] at hm
    exact absurd hm List.not_mem_nil

/-- A node with links is left for the first of them that is no dead end. -/
theorem turns {before behind : List Nat}
    (h : Standing g kind site graph (⟨site.base + i, token⟩ :: els) seen opened scopes)
    {next : Option Token} (hi : site.body.nodes[i]? = some node) (hplain : node.kind.isPlain = true)
    (hslot : token = none → node.kind.isSlot = false) (hexit : i ≠ 1)
    (hlinks : node.successors = before ++ j :: behind)
    (hbefore : ∀ k ∈ before, Dead g next graph (site.base + k)) :
    Turns g graph (⟨site.base + i, token⟩ :: els) next (site.base + j) := by
  have hk := h.holds.kind i node hi
  have hwired := h.holds.wired i node hi
  rw [if_neg hexit, List.append_nil, hlinks, List.map_append, List.map_cons] at hwired
  refine turns_wired ⟨?_, fun htoken => ?_⟩ hwired ?_
  · rw [hk, NodeKind.isPlain_moved, hplain]
  · rw [hk, NodeKind.isSlot_moved, hslot htoken]
  · exact List.forall_mem_map.mpr fun k hk => hbefore k hk graph (le_refl graph) _ h.lt

theorem turns_next (i j : Nat)
    (h : Standing g kind site graph (⟨site.base + i, token⟩ :: els) seen opened scopes)
    {k : NodeKind} {next : Option Token} (hi : site.body.nodes[i]? = some ⟨k, [j]⟩)
    (hplain : k.isPlain = true) (hslot : token = none → k.isSlot = false) (hexit : i ≠ 1) :
    Turns g graph (⟨site.base + i, token⟩ :: els) next (site.base + j) :=
  h.turns hi hplain hslot hexit (List.nil_append _).symm fun _ hk => absurd hk List.not_mem_nil

theorem reads_pass (h : Standing g kind site graph els seen opened scopes)
    (hturns : Turns g graph els tokens.head? (site.base + j)) (hj : site.body.nodes[j]? = some node)
    (hsilent : node.kind.isSilent = true) (hseen : j ∉ seen)
    (hnext : Standing g kind site graph (⟨site.base + j, none⟩ :: els) (j :: seen) opened scopes →
      Proceeds g full P graph (⟨site.base + j, none⟩ :: els) tokens) :
    Proceeds g full P graph els tokens :=
  .turn hturns (h.not_revisits hj (NodeKind.startedRule?_of_isSilent hsilent) hseen)
    (hnext (h.pass hj hsilent))

theorem reads_take (h : Standing g kind site graph els seen (top :: outer) scopes)
    (hturns : Turns g graph els (some t) (site.base + j))
    (hj : site.body.nodes[j]? = some ⟨.slot type ident hook, links⟩) (hseen : j ∉ seen)
    (ht : t.hasType type.id = true)
    (hnext : Standing g kind site graph (⟨site.base + j, some t⟩ :: els) []
        (top.addChild (.ofToken t (ident.getD "")) :: outer)
        (hook.elim scopes fun hook => Scope.update (hook.apply · t) 0 scopes) →
      Proceeds g full P graph (⟨site.base + j, some t⟩ :: els) rest) :
    Proceeds g full P graph els (t :: rest) :=
  .turn hturns (h.not_revisits hj rfl hseen)
    (.take (h.holds.kind j _ hj) ht (hnext (h.take hj t)).succeeds)

/-- The exit is left for the node behind the instance. -/
theorem turns_exit
    (h : Standing g kind site graph (⟨site.base + 1, none⟩ :: els) seen opened scopes)
    (hexit : site.body.nodes[1]? = some ⟨.junction, []⟩) :
    Turns g graph (⟨site.base + 1, none⟩ :: els) token site.stop := by
  have hwired : graph.wired (site.base + 1) = [] ++ site.stop :: [] := h.holds.wired 1 _ hexit
  exact turns_wired (left_of_junction (h.holds.kind 1 _ hexit)) hwired fun _ hm =>
    absurd hm List.not_mem_nil

/-- From the exit the search goes on to the end of the rule, where the node of
the instance is closed. -/
theorem reads_exit {parent : Tree} {rule : RuleId} (h : Standing g kind site graph
      (⟨site.base + 1, none⟩ :: els) seen (top :: parent :: outer) scopes)
    (hexit : site.body.nodes[1]? = some ⟨.junction, []⟩)
    (hk : graph.kind site.stop = .ruleEnd rule ident)
    (hstop : site.stop ∉ Path.visited (⟨site.base + 1, none⟩ :: els))
    (hnext : Footing g kind graph (⟨site.stop, none⟩ :: ⟨site.base + 1, none⟩ :: els)
        (parent.addChild (top.transformed g kind rule) :: outer) (.exited :: scopes) →
      Proceeds g full P graph (⟨site.stop, none⟩ :: ⟨site.base + 1, none⟩ :: els) tokens) :
    Proceeds g full P graph (⟨site.base + 1, none⟩ :: els) tokens :=
  .turn (h.turns_exit hexit) (not_revisits_ruleEnd hk hstop) (hnext (h.toFooting.close hk))

/-- From the exit of the outermost instance the search goes on to the end, if no token is
left.  The tree is finished. -/
theorem reads_end {tree : Tree}
    (h : Standing g kind site graph (⟨site.base + 1, none⟩ :: els) seen [top] scopes)
    (hexit : site.body.nodes[1]? = some ⟨.junction, []⟩) (hle : .ofGrammar g ≤ graph)
    (hstop : site.stop = Graph.rootEnd)
    (hvisited : Graph.rootEnd ∉ Path.visited (⟨site.base + 1, none⟩ :: els))
    (htree : top.transformed g kind g.root = tree) :
    Proceeds g full (fun s => Tree.reduce g s.graph kind s.path = tree) graph
      (⟨site.base + 1, none⟩ :: els) [] := by
  have hend : graph.kind Graph.rootEnd = .ruleEnd g.root g.ident := Graph.kind_rootEnd hle
  have hlast : graph.wired Graph.rootEnd = [] := Graph.wired_of_le hle Nat.zero_lt_two
  refine .turn (hstop ▸ h.turns_exit hexit) (not_revisits_ruleEnd hend hvisited)
    (.finish hend hlast ?_)
  rw [Tree.reduce, graph_ofElements, Path.toList, elements_ofElements, List.reverse_cons,
    (h.opens graph (le_refl graph)).reduce, Tree.reduceFrom, hend]
  exact htree

end Standing

section

variable {kind : TreeKind} {opened : List Tree} {scopes : List Scope} {rule : RuleId}
  {ident : Option String} {stop : NodeId} {body : Body}

theorem standing_entry (h : Footing g kind graph els opened scopes) (body : Body)
    (hstop : stop < graph.size) :
    Standing g kind ⟨graph.size, body.template, stop⟩ (graph.addBody body stop).2
      (⟨graph.size, none⟩ :: els) [0] opened scopes where
  toFooting := by
    have hadd := Graph.addBody_hasBody graph body stop
    exact (h.of_le hadd.le).pass hadd.region.1 (by rw [hadd.entry]; rfl)
  holds := Graph.holds_addBody hstop body
  visited m hm := by
    rw [Path.visited_cons_none, List.mem_cons] at hm
    rcases hm with rfl | hm
    · exact .inr (.inr ⟨0, List.mem_cons_self, rfl⟩)
    · exact .inl (Path.lt_size_of_mem_visited h.lt hm)

/-- The start of a rule with one body for all contexts is left into a fresh instance of it. -/
theorem Footing.reads_enter (h : Footing g kind graph (⟨n, none⟩ :: els) opened scopes)
    (hk : graph.kind n = .ruleStart rule ident stop) (hstop : stop < graph.size)
    (hexpand : g.expand? rule = some fun _ => body)
    (hnext : ∀ b, graph ≤ b →
      Standing g kind ⟨graph.size, body.template, stop⟩ b (⟨graph.size, none⟩ :: ⟨n, none⟩ :: els)
        [0] opened scopes →
      Proceeds g full P b (⟨graph.size, none⟩ :: ⟨n, none⟩ :: els) tokens) :
    Proceeds g full P graph (⟨n, none⟩ :: els) tokens :=
  .enter hk hexpand (fun e he => h.lt e (List.mem_cons_of_mem _ he))
    (hnext _ (Graph.addBody_hasBody graph body stop).le (standing_entry h body hstop))

end

end Search

end GrammarGraph
