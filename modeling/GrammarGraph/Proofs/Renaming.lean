import GrammarGraph.Proofs.Preferences
import GrammarGraph.Proofs.Templates

/-!
# The numbers of nodes do not matter

Where bodies have neither gates nor switches nor hooks and depend on nothing but the variables and
the next token (`Grammar.Uniform`), an enumeration looks at the kinds of nodes and at their links,
and at which of them the path has visited since the last token, but not at their numbers.  So it
comes to the same in two arenas whose nodes stand for one another, as long as the paths do from the
last token on (`Search.Alike.explore`).
-/

namespace GrammarGraph

/-- The bodies are made of junctions, slots without hooks and references, and depend on the
variables and the next token only. -/
structure Grammar.Uniform (g : Grammar) : Prop where
  regular : ∀ {rule expand}, g.expand? rule = some expand → ∀ ctx, (expand ctx).template.Regular
  expand_eq : ∀ {rule expand}, g.expand? rule = some expand → ∀ {ctx ctx' : Context},
    ctx.path.scopes = ctx'.path.scopes → ctx.token = ctx'.token → expand ctx = expand ctx'

variable {R R' : NodeId → NodeId → Prop} {a b a' b' : Graph}
  {n m n' m' stop stop' : NodeId} {g : Grammar}

/-! ## Kinds and arenas -/

/-- The kinds of nodes that stand for one another. -/
inductive NodeKind.Alike (R : NodeId → NodeId → Prop) : NodeKind → NodeKind → Prop
  | ruleStart {rule : RuleId} {ident : Option String} {stop stop' : NodeId} : R stop stop' →
      Alike R (.ruleStart rule ident stop) (.ruleStart rule ident stop')
  | ruleEnd {rule : RuleId} {ident : Option String} :
      Alike R (.ruleEnd rule ident) (.ruleEnd rule ident)
  | slot {type : TokenType} {ident : Option String} :
      Alike R (.slot type ident none) (.slot type ident none)
  | junction : Alike R .junction .junction

namespace NodeKind

variable {k k' : NodeKind}

namespace Alike

theorem mono (h : Alike R k k') (hR : R ≤ R') : Alike R' k k' := by
  cases h with
  | ruleStart hstop => exact .ruleStart (hR _ _ hstop)
  | ruleEnd => exact .ruleEnd
  | slot => exact .slot
  | junction => exact .junction

theorem startedRule?_eq (h : Alike R k k') : k.startedRule? = k'.startedRule? := by cases h <;> rfl

theorem endedRule?_eq (h : Alike R k k') : k.endedRule? = k'.endedRule? := by cases h <;> rfl

theorem isSlot_eq (h : Alike R k k') : k.isSlot = k'.isSlot := by cases h <;> rfl

theorem isRuleEnd_eq (h : Alike R k k') : k.isRuleEnd = k'.isRuleEnd := by cases h <;> rfl

end Alike

theorem isPlain_of_isSlot (h : k.isSlot = true) : k.isPlain = true := by
  cases k <;> first | rfl | exact absurd h nofun

namespace Alike

theorem refl_of_regular (h : k.Regular)
    (hstop : ∀ rule ident stop, k = .ruleStart rule ident stop → R stop stop) : Alike R k k := by
  cases k with
  | ruleStart rule ident stop => exact .ruleStart (hstop rule ident stop rfl)
  | ruleEnd => exact .ruleEnd
  | slot type ident hook =>
    obtain rfl : hook = none := h
    exact .slot
  | junction => exact .junction
  | gate | switch => exact h.elim

/-- A node of a body that was wired in two arenas. -/
theorem moved_of_regular {lo lo' : Nat} (h : k.Regular)
    (hstop : ∀ rule ident stop, k = .ruleStart rule ident stop → R (lo + stop) (lo' + stop)) :
    Alike R (k.moved lo) (k.moved lo') := by
  cases k with
  | ruleStart rule ident stop => exact .ruleStart (hstop rule ident stop rfl)
  | ruleEnd => exact .ruleEnd
  | slot type ident hook =>
    obtain rfl : hook = none := h
    exact .slot
  | junction => exact .junction
  | gate | switch => exact h.elim

end Alike

end NodeKind

namespace Graph

/-- Nodes of two arenas stand for one another: each for one at most, of the same kind and linked to
nodes that stand for one another as well. -/
structure Alike (R : NodeId → NodeId → Prop) (a b : Graph) : Prop where
  lt_left : ∀ {n m}, R n m → n < a.size
  lt_right : ∀ {n m}, R n m → m < b.size
  eq_iff : ∀ {n m n' m'}, R n m → R n' m' → (n = n' ↔ m = m')
  kind : ∀ {n m}, R n m → (a.kind n).Alike R (b.kind m)
  targets : ∀ {n m}, R n m → List.Forall₂ R (a.targets n) (b.targets m)

/-- The nodes of an arena stand for themselves in the arenas behind it. -/
theorem alike_of_le (ha : a.Regular) (hwell : a.WellFormed) (hle : a ≤ b) :
    Alike (fun n m => n = m ∧ n < a.size) a b where
  lt_left h := h.2
  lt_right := by
    rintro n m ⟨rfl, hlt⟩
    exact lt_of_lt_of_le hlt hle.1
  eq_iff := by
    rintro n m n' m' ⟨rfl, -⟩ ⟨rfl, -⟩
    exact Iff.rfl
  kind := by
    rintro n m ⟨rfl, hlt⟩
    rw [kind_of_le hle hlt]
    exact .refl_of_regular (ha n) fun rule ident stop hk =>
      ⟨rfl, hwell.stop_lt n rule ident stop hk⟩
  targets := by
    rintro n m ⟨rfl, hlt⟩
    rw [targets_of_le hle hlt, List.forall₂_same]
    exact fun m hm => ⟨rfl, hwell.targets_lt n m hm⟩

/-- The nodes of a body that was wired behind `lo` in one arena stand for those behind
`lo'` in the other one. -/
def Beyond (R : NodeId → NodeId → Prop) (lo lo' size : Nat) (n m : NodeId) : Prop :=
  R n m ∨ ∃ i < size, n = lo + i ∧ m = lo' + i

theorem le_beyond (R : NodeId → NodeId → Prop) (lo lo' size : Nat) : R ≤ Beyond R lo lo' size :=
  fun _ _ => .inl

theorem alike_addBody_kind {body : Body} (hbody : body.template.Regular) {node : Node} {i : Nat}
    (hi : body.template.nodes[i]? = some node)
    (hstops : ∀ rule ident s, node.kind = .ruleStart rule ident s → s < body.template.size) :
    (node.kind.moved a.size).Alike (Beyond R a.size b.size body.template.size)
      (node.kind.moved b.size) := by
  refine .moved_of_regular ?_ fun rule ident s hk => .inr ⟨s, hstops rule ident s hk, rfl, rfl⟩
  have hregular := hbody i
  rwa [Graph.kind, hi] at hregular

theorem zero_lt_template (a : Graph) (body : Body) (stop : NodeId) : 0 < body.template.size := by
  have hlt := (addBody_hasBody a body stop).region.lt
  rw [size_addBody] at hlt
  exact Nat.pos_of_lt_add_right hlt

/-- What a node of a wired body is linked to lies in the body, unless it is the end of the
instance. -/
theorem lt_template_of_mem {body : Body} (hstop : stop < a.size) {node : Node} {i s : Nat}
    (hi : body.template.nodes[i]? = some node) (hplain : node.kind.isPlain = true)
    (hs : s ∈ node.successors) : s < body.template.size := by
  have hholds := holds_addBody hstop body
  have hlt : i < body.template.size := (Array.getElem?_eq_some_iff.mp hi).1
  have hmem : a.size + s ∈ (a.addBody body stop).2.targets (a.size + i) := by
    rw [targets, hholds.kind i node hi, hholds.wired i node hi, NodeKind.targets_of_isPlain]
    · exact List.mem_append_left _ (List.mem_map_of_mem hs)
    · cases hk : node.kind <;> rw [hk] at hplain <;> first | rfl | exact absurd hplain nofun
  have hhi : a.size + i < (a.addBody body stop).2.size :=
    size_addBody a body stop ▸ Nat.add_lt_add_left hlt _
  rcases (addBody_hasBody a body stop).region.targets _ (Nat.le_add_right _ _) hhi
    _ hmem with rfl | ⟨-, hlt⟩
  · exact absurd hstop (Nat.not_lt.mpr (Nat.le_add_right _ _))
  · exact Nat.lt_of_add_lt_add_left (size_addBody a body stop ▸ hlt)

theorem stop_lt_template {body : Body} (hstop : stop < a.size) {node : Node} {i s : Nat}
    {rule : RuleId} {ident : Option String} (hi : body.template.nodes[i]? = some node)
    (hk : node.kind = .ruleStart rule ident s) : s < body.template.size := by
  have hkind := (holds_addBody hstop body).kind i node hi
  have hlt : i < body.template.size := (Array.getElem?_eq_some_iff.mp hi).1
  have hhi : a.size + i < (a.addBody body stop).2.size :=
    size_addBody a body stop ▸ Nat.add_lt_add_left hlt _
  rw [hk] at hkind
  obtain ⟨-, hlt, -⟩ :=
    (addBody_hasBody a body stop).region.stops _ rule ident
      (a.size + s) (Nat.le_add_right _ _) hhi hkind
  exact Nat.lt_of_add_lt_add_left (size_addBody a body stop ▸ hlt)

/-- The same body in two arenas, in front of ends that stand for one another. -/
theorem Alike.addBody (h : Alike R a b) {body : Body} (hbody : body.template.Regular)
    (hstop : R stop stop') : Alike (Beyond R a.size b.size body.template.size)
      (a.addBody body stop).2 (b.addBody body stop').2 := by
  have ha := (addBody_hasBody a body stop).le
  have hb := (addBody_hasBody b body stop').le
  have hholds := holds_addBody (h.lt_left hstop) body
  have hholds' := holds_addBody (h.lt_right hstop) body
  have hnode : ∀ i < body.template.size, ∃ node, body.template.nodes[i]? = some node := fun i hi =>
    ⟨_, Array.getElem?_eq_getElem hi⟩
  constructor
  · rintro n m (hnm | ⟨i, hi, rfl, -⟩)
    · exact lt_of_lt_of_le (h.lt_left hnm) ha.1
    · exact lt_of_lt_of_le (Nat.add_lt_add_left hi _) hholds.size_le
  · rintro n m (hnm | ⟨i, hi, -, rfl⟩)
    · exact lt_of_lt_of_le (h.lt_right hnm) hb.1
    · exact lt_of_lt_of_le (Nat.add_lt_add_left hi _) hholds'.size_le
  · rintro n m n' m' (hnm | ⟨i, hi, rfl, rfl⟩) (hnm' | ⟨j, hj, rfl, rfl⟩)
    · exact h.eq_iff hnm hnm'
    · exact iff_of_false (ne_of_lt (Nat.lt_add_right j (h.lt_left hnm)))
        (ne_of_lt (Nat.lt_add_right j (h.lt_right hnm)))
    · exact iff_of_false (ne_of_gt (Nat.lt_add_right i (h.lt_left hnm')))
        (ne_of_gt (Nat.lt_add_right i (h.lt_right hnm')))
    · rw [Nat.add_left_cancel_iff, Nat.add_left_cancel_iff]
  · rintro n m (hnm | ⟨i, hi, rfl, rfl⟩)
    · rw [kind_of_le ha (h.lt_left hnm), kind_of_le hb (h.lt_right hnm)]
      exact (h.kind hnm).mono (le_beyond R _ _ _)
    · obtain ⟨node, hi⟩ := hnode i hi
      rw [hholds.kind i node hi, hholds'.kind i node hi]
      exact alike_addBody_kind hbody hi fun rule ident s hk =>
        stop_lt_template (h.lt_left hstop) hi hk
  · rintro n m (hnm | ⟨i, hi, rfl, rfl⟩)
    · rw [targets_of_le ha (h.lt_left hnm), targets_of_le hb (h.lt_right hnm)]
      exact (h.targets hnm).imp (le_beyond R _ _ _)
    · obtain ⟨node, hi⟩ := hnode i hi
      have hregular : node.kind.Regular := by
        have hregular := hbody i
        rwa [Graph.kind, hi] at hregular
      rw [Graph.targets, Graph.targets, hholds.kind i node hi, hholds'.kind i node hi,
        hholds.wired i node hi, hholds'.wired i node hi]
      have hlinks (hplain : node.kind.isPlain = true) :
          List.Forall₂ (Beyond R a.size b.size body.template.size)
          (node.successors.map (a.size + ·) ++ if i = 1 then [stop] else [])
          (node.successors.map (b.size + ·) ++ if i = 1 then [stop'] else []) := by
        refine List.rel_append ?_ ?_
        · rw [List.forall₂_map_left_iff, List.forall₂_map_right_iff, List.forall₂_same]
          exact fun s hs => .inr ⟨s, lt_template_of_mem (h.lt_left hstop) hi hplain hs, rfl, rfl⟩
        · split
          · exact .cons (.inl hstop) .nil
          · exact .nil
      cases hk : node.kind with
      | ruleStart => exact .nil
      | ruleEnd | slot | junction =>
        rw [hk] at hlinks
        exact hlinks rfl
      | gate | switch =>
        rw [hk] at hregular
        exact hregular.elim

end Graph

/-! ## Paths -/

namespace Path

/-- Since the last token the paths have visited nodes that stand for one another; the slots that
took the token lead on to such nodes. -/
inductive Alike (R : NodeId → NodeId → Prop) (a b : Graph) :
    List PathElement → List PathElement → Prop
  | nil : Alike R a b [] []
  | taken {n m : NodeId} {t u : Token} {els els' : List PathElement} : n < a.size → m < b.size →
      (a.kind n).isSlot = true → (b.kind m).isSlot = true →
      List.Forall₂ R (a.targets n) (b.targets m) →
      Alike R a b (⟨n, some t⟩ :: els) (⟨m, some u⟩ :: els')
  | cons {n m : NodeId} {els els' : List PathElement} : R n m → Alike R a b els els' →
      Alike R a b (⟨n, none⟩ :: els) (⟨m, none⟩ :: els')

variable {els els' : List PathElement}

theorem Alike.mono (h : Alike R a b els els') (hR : R ≤ R') (ha : a ≤ a') (hb : b ≤ b') :
    Alike R' a' b' els els' := by
  induction h with
  | nil => exact .nil
  | taken hn hm hslot hslot' htargets =>
    refine .taken (lt_of_lt_of_le hn ha.1) (lt_of_lt_of_le hm hb.1) ?_ ?_ ?_
    · rwa [Graph.kind_of_le ha hn]
    · rwa [Graph.kind_of_le hb hm]
    · rw [Graph.targets_of_le ha hn, Graph.targets_of_le hb hm]
      exact htargets.imp hR
  | cons hnm _ ih => exact .cons (hR _ _ hnm) ih

theorem Alike.revisitsIn_eq (h : Alike R a b els els') (hg : Graph.Alike R a b) (hnm : R n m)
    (closed : Nat) : revisitsIn a n closed els = revisitsIn b m closed els' := by
  induction h generalizing closed with
  | nil => rfl
  | taken => rfl
  | cons hnm' _ ih =>
    have hkind := hg.kind hnm'
    simp only [revisitsIn, hkind.startedRule?_eq, hkind.endedRule?_eq,
      (hg.kind hnm).startedRule?_eq,
      hg.eq_iff hnm' hnm, ih]

end Path

/-! ## Searches -/

namespace Search

variable {s s' : Search} {tokens : List Token}

/-- Arenas and paths of nodes that stand for one another, with the same variables. -/
structure Alike (R : NodeId → NodeId → Prop) (s s' : Search) : Prop where
  graph : Graph.Alike R s.graph s'.graph
  elements : Path.Alike R s.graph s'.graph s.path.elements s'.path.elements
  scopes : s.path.scopes = s'.path.scopes

theorem Alike.in_arena (h : Alike R s s') (hR : R ≤ R') (ha : s.graph ≤ a) (hb : s'.graph ≤ b)
    (hg : Graph.Alike R' a b) : Alike R' { s with graph := a } { s' with graph := b } where
  graph := hg
  elements := h.elements.mono hR ha hb
  scopes := h.scopes

theorem Alike.revisits_eq (h : Alike R s s') (hnm : R n m) :
    s.path.revisits s.graph n = s'.path.revisits s'.graph m :=
  h.elements.revisitsIn_eq h.graph hnm 0

theorem Alike.scopes_push (h : Alike R s s') (hnm : R n m) (token : Option Token) :
    (s.push g n token).path.scopes = (s'.push g m token).path.scopes := by
  have hkind := h.graph.kind hnm
  unfold Search.push Path.push
  simp only [h.scopes]
  generalize s.graph.kind n = k at hkind ⊢
  generalize s'.graph.kind m = k' at hkind ⊢
  cases hkind <;> rfl

/-- Stepping onto nodes that stand for one another. -/
theorem Alike.push (h : Alike R s s') (hnm : R n m) :
    Alike R (s.push g n none) (s'.push g m none) where
  graph := h.graph
  elements := .cons hnm h.elements
  scopes := h.scopes_push hnm none

theorem Alike.push_slot (h : Alike R s s') (hnm : R n m) (hslot : (s.graph.kind n).isSlot = true)
    (t : Token) : Alike R (s.push g n (some t)) (s'.push g m (some t)) where
  graph := h.graph
  elements := by
    refine .taken (h.graph.lt_left hnm) (h.graph.lt_right hnm) hslot ?_ (h.graph.targets hnm)
    rwa [graph_push, ← (h.graph.kind hnm).isSlot_eq]
  scopes := h.scopes_push hnm (some t)

/-- What two nodes are left to: nothing, or nodes that stand for one another, and so do those
that were wired for them. -/
inductive Successors (R : NodeId → NodeId → Prop) (a b : Graph) :
    Option (List NodeId) × Graph → Option (List NodeId) × Graph → Prop
  | none {a' b' : Graph} : Successors R a b (none, a') (none, b')
  | some {R' : NodeId → NodeId → Prop} {a' b' : Graph} {next next' : List NodeId} :
      R ≤ R' → a ≤ a' → b ≤ b' → Graph.Alike R' a' b' → List.Forall₂ R' next next' →
      Successors R a b (some next, a') (some next', b')

theorem Alike.successors_of_isPlain (h : Alike R s s') {ctx ctx' : Context}
    (hn : (s.graph.kind n).isPlain = true) (hm : (s'.graph.kind m).isPlain = true)
    (htargets : List.Forall₂ R (s.graph.targets n) (s'.graph.targets m)) :
    Successors R s.graph s'.graph (s.graph.successors g n ctx) (s'.graph.successors g m ctx') := by
  rw [Graph.targets, Graph.targets, NodeKind.targets_of_isPlain hn,
    NodeKind.targets_of_isPlain hm] at htargets
  rw [Graph.successors_of_isPlain g hn, Graph.successors_of_isPlain g hm]
  exact .some (le_refl R) (le_refl _) (le_refl _) h.graph htargets

theorem Alike.successors_of_node (h : Alike R s s') (hg : g.Uniform) (hnm : R n m)
    (token : Option Token) : Successors R s.graph s'.graph (s.graph.successors g n ⟨s.path, token⟩)
      (s'.graph.successors g m ⟨s'.path, token⟩) := by
  have hkind := h.graph.kind hnm
  have htargets := h.graph.targets hnm
  generalize hk : s.graph.kind n = k at hkind
  generalize hk' : s'.graph.kind m = k' at hkind
  cases hkind with
  | @ruleStart rule ident stop stop' hstop =>
    simp only [Graph.successors, hk, hk']
    cases hexpand : g.expand? rule with
    | none => exact .none
    | some expand =>
      have hbody : expand ⟨s.path, token⟩ = expand ⟨s'.path, token⟩ :=
        hg.expand_eq hexpand h.scopes rfl
      have halike := h.graph.addBody (hg.regular hexpand ⟨s.path, token⟩) hstop
      have hle := (Graph.addBody_hasBody s.graph (expand ⟨s.path, token⟩) stop).le
      have hle' := (Graph.addBody_hasBody s'.graph (expand ⟨s.path, token⟩) stop').le
      simp only [← hbody]
      refine .some (Graph.le_beyond R _ _ _) hle hle' halike (.cons (.inr ⟨0, ?_, rfl, rfl⟩) .nil)
      exact Graph.zero_lt_template s.graph _ stop
  | ruleEnd | slot | junction =>
    exact h.successors_of_isPlain (by rw [hk]; rfl) (by rw [hk']; rfl) htargets

/-- What follows the tips. -/
theorem Alike.successors (h : Alike R s s') (hg : g.Uniform) {tip : PathElement}
    (ht : s.path.tip? = some tip) (token : Option Token) : ∃ tip', s'.path.tip? = some tip' ∧
      (s.graph.kind tip.node).isRuleEnd = (s'.graph.kind tip'.node).isRuleEnd ∧
      Successors R s.graph s'.graph (s.graph.successors g tip.node ⟨s.path, token⟩)
        (s'.graph.successors g tip'.node ⟨s'.path, token⟩) := by
  have hels := h.elements
  obtain ⟨rest, htip⟩ := exists_rest ht
  rw [htip] at hels
  generalize hels' : s'.path.elements = els' at hels
  cases hels with
  | taken hn hm hslot hslot' htargets =>
    refine ⟨_, tip?_eq hels', ?_, h.successors_of_isPlain ?_ ?_ htargets⟩
    · rw [NodeKind.isRuleEnd_of_isSlot hslot, NodeKind.isRuleEnd_of_isSlot hslot']
    · exact NodeKind.isPlain_of_isSlot hslot
    · exact NodeKind.isPlain_of_isSlot hslot'
  | cons hnm =>
    exact ⟨_, tip?_eq hels', (h.graph.kind hnm).isRuleEnd_eq, h.successors_of_node hg hnm token⟩

end Search

/-! ## Answers -/

/-- Answers for arenas that stand for one another: both find a path, or both keep arenas in which
the nodes that were wired meanwhile do so as well, or none. -/
inductive Answer.Alike (R : NodeId → NodeId → Prop) (a b : Graph) : Answer → Answer → Prop
  | found {s s' : Search} : Alike R a b (.found s) (.found s')
  | released : Alike R a b (.nothing none) (.nothing none)
  | kept {R' : NodeId → NodeId → Prop} {a' b' : Graph} : R ≤ R' → a ≤ a' → b ≤ b' →
      Graph.Alike R' a' b' → Alike R a b (.nothing (some a')) (.nothing (some b'))

namespace Answer.Alike

variable {x y : Answer}

/-- What was wired before the answer is kept as well. -/
theorem trans (h : Alike R' a' b' x y) (hR : R ≤ R') (ha : a ≤ a') (hb : b ≤ b') :
    Alike R a b x y := by
  cases h with
  | found => exact .found
  | released => exact .released
  | kept hR' ha' hb' hg => exact .kept (le_trans hR hR') (le_trans ha ha') (le_trans hb hb') hg

theorem orKeep (h : Alike R' a' b' x y) (hR : R ≤ R') (ha : a ≤ a') (hb : b ≤ b')
    (hg : Graph.Alike R' a' b') : Alike R a b (x.orKeep (some a')) (y.orKeep (some b')) := by
  cases h with
  | found => exact .found
  | released => exact .kept hR ha hb hg
  | kept hR' ha' hb' hg' => exact .kept (le_trans hR hR') (le_trans ha ha') (le_trans hb hb') hg'

end Answer.Alike

namespace Search

variable {s s' : Search} {tokens : List Token} {x : Answer} {next next' : List NodeId}
  {visit : List Token → Search → Option Answer}

/-- Visiting searches that stand for one another gives such answers. -/
def Agrees (visit : List Token → Search → Option Answer) : Prop :=
  ∀ ⦃R s s' tokens x⦄, Alike R s s' → visit tokens s = some x →
    ∃ y, visit tokens s' = some y ∧ Answer.Alike R s.graph s'.graph x y

theorem Alike.attempt (h : Alike R s s') (hnm : R n m) (hv : Agrees visit)
    (hx : attempt g tokens visit s n = some x) :
    ∃ y, attempt g tokens visit s' m = some y ∧ Answer.Alike R s.graph s'.graph x y := by
  have hrev := h.revisits_eq hnm
  cases hn : s.path.revisits s.graph n with
  | true =>
    unfold Search.attempt at hx
    rw [if_pos hn] at hx
    obtain rfl := Option.some.inj hx
    exact ⟨_, if_pos (hrev.symm.trans hn), .released⟩
  | false =>
    rw [attempt_of_not_revisits hn] at hx
    rw [attempt_of_not_revisits (hrev.symm.trans hn)]
    have hkind := h.graph.kind hnm
    generalize hk : s.graph.kind n = k at hkind hx
    generalize s'.graph.kind m = k' at hkind
    cases hkind with
    | @slot type ident =>
      cases tokens with
      | nil =>
        obtain rfl := Option.some.inj hx
        exact ⟨_, rfl, .released⟩
      | cons t rest =>
        simp only at hx ⊢
        split at hx
        · next htype =>
          obtain ⟨inner, hinner, rfl⟩ := Option.map_eq_some_iff.mp hx
          obtain ⟨y, hy, halike⟩ := hv (h.push_slot hnm (by rw [hk]; rfl) t) hinner
          rw [if_pos htype, hy]
          exact ⟨_, rfl, halike.orKeep (le_refl R) (le_refl _) (le_refl _) h.graph⟩
        · next htype =>
          obtain rfl := Option.some.inj hx
          exact ⟨_, if_neg htype, .released⟩
    | ruleStart | ruleEnd | junction =>
      have hvisit := hv (h.push hnm) hx
      exact hvisit

theorem Alike.attemptEach (h : Alike R s s') (hnext : List.Forall₂ R next next') (hv : Agrees visit)
    (hx : attemptEach g tokens visit next s = some x) :
    ∃ y, attemptEach g tokens visit next' s' = some y ∧ Answer.Alike R s.graph s'.graph x y := by
  induction next generalizing R s s' x next' with
  | nil =>
    cases hnext
    obtain rfl := Option.some.inj hx
    exact ⟨_, rfl, .released⟩
  | cons n next ih =>
    cases hnext with
    | @cons _ m _ next' hnm hnext =>
      rw [Search.attemptEach] at hx ⊢
      cases hn : Search.attempt g tokens visit s n with
      | none =>
        rw [hn] at hx
        exact (Option.some_ne_none x hx.symm).elim
      | some x' =>
        rw [hn] at hx
        obtain ⟨y', hm, halike⟩ := h.attempt hnm hv hn
        rw [hm]
        cases halike with
        | found =>
          obtain rfl := Option.some.inj hx
          exact ⟨_, rfl, .found⟩
        | released =>
          obtain ⟨inner, hinner, rfl⟩ := Option.map_eq_some_iff.mp hx
          obtain ⟨y, hy, halike⟩ := ih h hnext hinner
          simp only [Option.getD_none] at hy ⊢
          rw [hy, Answer.orKeep_none]
          exact ⟨y, by rw [Option.map_some, Answer.orKeep_none], halike⟩
        | kept hR ha hb hg =>
          obtain ⟨inner, hinner, rfl⟩ := Option.map_eq_some_iff.mp hx
          obtain ⟨y, hy, halike⟩ := ih (h.in_arena hR ha hb hg) (hnext.imp hR) hinner
          simp only [Option.getD_some] at hy ⊢
          rw [hy]
          exact ⟨_, rfl, halike.orKeep hR ha hb hg⟩

/-- Searches that stand for one another come to the same. -/
theorem agrees_explore (hg : g.Uniform) : ∀ fuel : Nat, Agrees (explore g fuel)
  | 0, _, _, _, _, _, _, hx => absurd hx nofun
  | fuel + 1, R, s, s', tokens, x, h, hx => by
    rw [explore] at hx
    split at hx
    · next ht =>
      obtain rfl := Option.some.inj hx
      have hels := h.elements
      rw [show s.path.elements = [] from List.head?_eq_none_iff.mp ht] at hels
      generalize hels' : s'.path.elements = els' at hels
      cases hels
      have ht' : s'.path.tip? = none := List.head?_eq_none_iff.mpr hels'
      exact ⟨_, by rw [explore, ht'], .released⟩
    · next tip ht =>
      obtain ⟨tip', ht', hend, hsucc⟩ := h.successors hg ht tokens.head?
      simp only [explore, ht', ← hend]
      generalize s.graph.successors g tip.node ⟨s.path, tokens.head?⟩ = next at hsucc hx
      generalize s'.graph.successors g tip'.node ⟨s'.path, tokens.head?⟩ = next' at hsucc
      cases hsucc with
      | none =>
        obtain rfl := Option.some.inj hx
        exact ⟨_, rfl, .released⟩
      | @some R' a b next next' hR ha hb hgraph hnext =>
        have hempty : next'.isEmpty = next.isEmpty := by cases hnext <;> rfl
        simp only [hempty] at hx ⊢
        split at hx
        · next hend =>
          obtain rfl := Option.some.inj hx
          exact ⟨_, if_pos hend, .found⟩
        · next hend =>
          obtain ⟨y, hy, halike⟩ :=
            (h.in_arena hR ha hb hgraph).attemptEach hnext (agrees_explore hg fuel) hx
          exact ⟨y, by rw [if_neg hend, hy], halike.trans hR ha hb⟩

end Search

end GrammarGraph
