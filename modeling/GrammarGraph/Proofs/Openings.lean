import GrammarGraph.Proofs.Nesting
import GrammarGraph.Proofs.Sentences

/-!
# Rules opened since the last token

A path does not enter a rule again that it opened since the last token and has not closed
(`Path.openSince`).  All that it passed in the body of such a rule can stand for no token at all, so
the rule begins with what the path enters next: where a rule would be entered again it begins with
itself (`Path.Opened.not_revisits`).
-/

namespace GrammarGraph

namespace Grammar

variable {g : Grammar} {rule : RuleId} {p : Piece} {u : List Label}

/-- What the label stands for can do without tokens. -/
def Nullable (g : Grammar) (l : Label) : Prop := ∃ d, g.Generates d ∧ d.label = l ∧ d.tokens = []

/-- In a word of the first rule's body the second rule is behind nothing but
what can do without tokens. -/
def Begins (g : Grammar) (rule rule' : RuleId) : Prop :=
  ∃ p u ident v, g.expand? rule = some (fun _ => .ofPiece p) ∧
    u ++ .rule rule' ident :: v ∈ p.expr.matches' ∧ ∀ l ∈ u, g.Nullable l

/-- No rule is behind nothing in a word of its own, directly or through other rules. -/
def NotLeftRecursive (g : Grammar) : Prop := ∀ rule, ¬Relation.TransGen g.Begins rule rule

theorem exists_nullable (h : ∀ l ∈ u, g.Nullable l) :
    ∃ ds : List Derivation, ds.map (·.label) = u ∧ (∀ d ∈ ds, g.Generates d) ∧
      Derivation.tokensOfAll ds = [] := by
  induction u with
  | nil => exact ⟨[], rfl, fun _ hd => absurd hd List.not_mem_nil, rfl⟩
  | cons l u ih =>
    obtain ⟨⟨d, hd, rfl, htokens⟩, hu⟩ := List.forall_mem_cons.mp h
    obtain ⟨ds, rfl, hds, htokens'⟩ := ih hu
    refine ⟨d :: ds, rfl, List.forall_mem_cons.mpr ⟨hd, hds⟩, ?_⟩
    rw [Derivation.tokensOfAll, htokens, htokens', List.append_nil]

/-- A rule can do without tokens if all of a word can. -/
theorem nullable_rule (hexpand : g.expand? rule = some fun _ => .ofPiece p)
    (hu : u ∈ p.expr.matches') (h : ∀ l ∈ u, g.Nullable l) (ident : Option String) :
    g.Nullable (.rule rule ident) := by
  obtain ⟨ds, rfl, hds, htokens⟩ := exists_nullable h
  exact ⟨.node rule ident ds, .node hexpand hu hds, rfl, htokens⟩

end Grammar

/-- A walk keeps to the nodes that were there when it started. -/
theorem Graph.Walk.of_le {a b : Graph} {stop n : NodeId} {N : ℕ} {w : List Label} (hle : a ≤ b)
    (ha : a.WellFormed) (h : b.Walk stop n N w) : n < a.size → a.Walk stop n N w := by
  induction h with
  | done => exact fun _ => .done
  | @hop n m N w hne hm _ ih =>
    intro hn
    have honward : b.onward n = a.onward n := by
      unfold onward
      rw [kind_of_le hle hn, targets_of_le hle hn]
    rw [honward] at hm
    rw [kind_of_le hle hn]
    refine .hop hne hm (ih ?_)
    unfold onward at hm
    split at hm
    · next hk =>
      obtain rfl := List.mem_singleton.mp hm
      exact ha.stop_lt _ _ _ _ hk
    · exact ha.targets_lt _ _ hm

namespace Path

variable {a b graph : Graph} {g : Grammar} {n m : NodeId} {els : List PathElement}
  {e tip : PathElement} {f : Frame} {frames fs : List Frame} {rule : RuleId} {rules : List RuleId}

/-! ## Open rules -/

/-- The rules that were opened since the last token and are not closed, the innermost first. -/
def openSince (graph : Graph) : List PathElement → List RuleId
  | [] => []
  | e :: rest =>
    if e.token.isSome then []
    else if (graph.kind e.node).isRuleEnd then (openSince graph rest).tail
    else (graph.kind e.node).startedRule?.toList ++ openSince graph rest

theorem openSince_of_isSome (h : e.token.isSome = true) : openSince graph (e :: els) = [] := by
  rw [openSince, if_pos h]

theorem openSince_of_isRuleEnd (h : (graph.kind n).isRuleEnd = true) :
    openSince graph (⟨n, none⟩ :: els) = (openSince graph els).tail := by
  rw [openSince, if_neg (by simp), if_pos h]

theorem openSince_of_not_isRuleEnd (h : (graph.kind n).isRuleEnd = false) :
    openSince graph (⟨n, none⟩ :: els) =
      (graph.kind n).startedRule?.toList ++ openSince graph els := by
  rw [openSince, if_neg (by simp), if_neg (by simp [h])]

theorem startedRule?_of_mem_targets (hn : n ∈ graph.targets m) :
    (graph.kind m).startedRule? = none := by
  cases hk : graph.kind m with
  | ruleStart =>
    rw [Graph.targets, hk] at hn
    exact absurd hn List.not_mem_nil
  | _ => rfl

/-- The rules that were opened since the last token are the innermost ones. -/
theorem Placed.openSince_prefix (h : Placed graph g (e :: els) frames) :
    openSince graph (e :: els) <+:
      (graph.kind e.node).startedRule?.toList ++ frames.map (·.rule) := by
  generalize hels : e :: els = path at h
  induction h generalizing e els with
  | root hbase =>
    obtain ⟨rfl, rfl⟩ := List.cons.inj hels
    rw [openSince_of_not_isRuleEnd (by rw [Graph.kind_root hbase]; rfl), openSince]
    exact (List.prefix_append_right_inj _).mpr List.nil_prefix
  | @inside els' parent e' f fs _ htargets _ hend _ ih =>
    obtain ⟨rfl, rfl⟩ := List.cons.inj hels
    have hparent := ih rfl
    rw [startedRule?_of_mem_targets htargets, Option.toList_none, List.nil_append] at hparent
    obtain ⟨n, _ | t⟩ := e
    · rw [openSince_of_not_isRuleEnd hend]
      exact (List.prefix_append_right_inj _).mpr hparent
    · rw [openSince_of_isSome rfl]
      exact List.nil_prefix
  | @leave els' parent f f' fs hplaced htargets ih =>
    obtain ⟨rfl, rfl⟩ := List.cons.inj hels
    obtain ⟨ident, hk⟩ := hplaced.nested.kind_stop
    have hparent := ih rfl
    rw [startedRule?_of_mem_targets htargets, Option.toList_none, List.nil_append] at hparent
    rw [openSince_of_isRuleEnd (by rw [hk]; rfl), hk]
    rw [← List.drop_one]
    exact hparent.drop 1
  | @enter els' parent f f' fs ident hplaced hk hentry _ ih =>
    obtain ⟨rfl, rfl⟩ := List.cons.inj hels
    have hparent := ih rfl
    rw [hk] at hparent
    rw [openSince_of_not_isRuleEnd (by rw [hentry]; rfl), hentry]
    exact hparent

/-- The instance that ends is the innermost one, if it was opened since the last token. -/
theorem Placed.eq_of_openSince (h : Placed graph g (⟨m, none⟩ :: els) frames)
    (hend : (graph.kind m).isRuleEnd = true) :
    ∃ rule, (graph.kind m).endedRule? = some rule ∧
      ∀ rule' rules, openSince graph els = rule' :: rules → rule' = rule := by
  obtain ⟨parent, rest, f, f', fs, heq, rfl, rfl, hplaced, htargets⟩ := h.of_isRuleEnd hend
  obtain ⟨rfl, -⟩ := PathElement.mk.inj heq
  obtain ⟨ident, hk⟩ := hplaced.nested.kind_stop
  have hprefix := hplaced.openSince_prefix
  rw [startedRule?_of_mem_targets htargets, Option.toList_none, List.nil_append,
    List.map_cons] at hprefix
  refine ⟨f'.rule, by rw [hk]; rfl, fun rule' rules hopen => ?_⟩
  rw [hopen, List.cons_prefix_cons] at hprefix
  exact hprefix.1

/-- A path returns to a node only if the node was visited since the last token or starts a rule that
was opened since then. -/
theorem Placed.lt_count_of_revisits (h : Placed graph g els frames)
    (hn : (graph.kind n).startedRule? = some rule) (hvisited : n ∉ visited els) :
    ∀ {closed : ℕ}, revisitsIn graph n closed els = true →
      closed < (openSince graph els).count rule := by
  induction els generalizing frames with
  | nil => exact fun hrev => absurd hrev (by simp [revisitsIn])
  | cons e els ih =>
    have hrest : n ∉ visited els → ∀ {closed : ℕ}, revisitsIn graph n closed els = true →
        closed < (openSince graph els).count rule := by
      cases els with
      | nil => exact fun _ _ hrev => absurd hrev (by simp [revisitsIn])
      | cons parent els =>
        obtain ⟨frames', hplaced⟩ := h.pop (List.cons_ne_nil _ _)
        exact ih hplaced
    intro closed hrev
    obtain ⟨m, _ | t⟩ := e
    · rw [visited_cons_none, List.mem_cons, not_or] at hvisited
      have hne : m ≠ n := Ne.symm hvisited.1
      cases hend : (graph.kind m).isRuleEnd with
      | false =>
        rw [openSince_of_not_isRuleEnd hend]
        cases hstart : (graph.kind m).startedRule? with
        | none =>
          rw [revisitsIn_skip hn rfl hend hstart hne] at hrev
          exact hrest hvisited.2 hrev
        | some rule' =>
          rw [revisitsIn_of_starts hn rfl hstart hne] at hrev
          rw [Option.toList_some, List.singleton_append]
          split at hrev
          · next heq =>
            rw [heq, List.count_cons_self]
            cases closed with
            | zero => exact Nat.zero_lt_succ _
            | succ closed => exact Nat.succ_lt_succ (hrest hvisited.2 hrev)
          · next hother =>
            rw [List.count_cons_of_ne hother]
            exact hrest hvisited.2 hrev
      | true =>
        obtain ⟨rule', hended, hinnermost⟩ := h.eq_of_openSince hend
        rw [revisitsIn_of_ends hn rfl hended hne] at hrev
        have hlt := hrest hvisited.2 hrev
        rw [openSince_of_isRuleEnd hend]
        cases hopen : openSince graph els with
        | nil =>
          rw [hopen] at hlt
          exact absurd hlt (Nat.not_lt_zero _)
        | cons rule'' rules =>
          obtain rfl := hinnermost rule'' rules hopen
          rw [hopen, List.count_cons] at hlt
          rw [List.tail_cons]
          simp only [beq_iff_eq] at hlt
          split at hlt <;> omega
    · rw [revisitsIn.eq_def] at hrev
      cases hrev

/-! ## What is behind the entry of an open body -/

/-- What a walk from the node passes completes a word of the rule's body, with nothing in front but
what can do without tokens. -/
def Passes (graph : Graph) (g : Grammar) (f : Frame) (n : NodeId) : Prop :=
  ∃ p u, g.expand? f.rule = some (fun _ => .ofPiece p) ∧ (∀ l ∈ u, g.Nullable l) ∧
    ∀ N w, graph.Walk f.stop n N w → u ++ w ∈ p.expr.matches'

namespace Passes

theorem of_le (h : Passes a g f n) (hle : a ≤ b) (ha : a.WellFormed) (hn : n < a.size) :
    Passes b g f n := by
  obtain ⟨p, u, hexpand, hu, hwords⟩ := h
  exact ⟨p, u, hexpand, hu, fun N w hwalk => hwords N w (hwalk.of_le hle ha hn)⟩

theorem hop (h : Passes graph g f n) (hn : f.stop ≠ n) (hm : m ∈ graph.onward n)
    (hlabels : ∀ l ∈ (graph.kind n).labels, g.Nullable l) : Passes graph g f m := by
  obtain ⟨p, u, hexpand, hu, hwords⟩ := h
  refine ⟨p, u ++ (graph.kind n).labels, hexpand,
    fun l hl => (List.mem_append.mp hl).elim (hu l) (hlabels l), ?_⟩
  intro N w hwalk
  rw [List.append_assoc]
  exact hwords _ _ (hwalk.hop hn hm)

/-- A rule that came to its end without a token can do without tokens. -/
theorem nullable (h : Passes graph g f f.stop) (ident : Option String) :
    g.Nullable (.rule f.rule ident) := by
  obtain ⟨p, u, hexpand, hu, hwords⟩ := h
  have hword := hwords 0 [] .done
  rw [List.append_nil] at hword
  exact g.nullable_rule hexpand hword hu ident

/-- The rule begins with what the path enters. -/
theorem begins {ident : Option String} {stop : NodeId} {N : ℕ} {w : List Label}
    (h : Passes graph g f n) (hn : f.stop ≠ n) (hk : graph.kind n = .ruleStart rule ident stop)
    (hwalk : graph.Walk f.stop stop N w) : g.Begins f.rule rule := by
  obtain ⟨p, u, hexpand, hu, hwords⟩ := h
  have hhop := hwalk.hop hn (by rw [Graph.onward, hk]; exact List.mem_singleton_self _)
  rw [hk] at hhop
  exact ⟨p, u, ident, w, hexpand, hwords _ _ hhop, hu⟩

end Passes

/-- The rules are those of the innermost bodies.  The path passed nothing but what can do without
tokens in each of them, up to the node in the innermost one, and up to the start that the body
inside was entered from in the others. -/
def Window (graph : Graph) (g : Grammar) : List RuleId → List Frame → NodeId → Prop
  | [], _, _ => True
  | _ :: _, [], _ => False
  | rule :: rules, f :: fs, n =>
    f.rule = rule ∧ Passes graph g f n ∧
      ∃ start ident, graph.kind start = .ruleStart rule ident f.stop ∧ Window graph g rules fs start

theorem Window.of_le (hle : a ≤ b) (ha : a.WellFormed) :
    ∀ {rules : List RuleId} {frames : List Frame} {n : NodeId}, Window a g rules frames n →
    n < a.size → Window b g rules frames n
  | [], _, _, _, _ => trivial
  | _ :: _, _ :: _, _, h, hn => by
    obtain ⟨hrule, hpasses, start, ident, hk, hrest⟩ := h
    have hstart : start < a.size := Graph.lt_size_of_startedRule (by rw [hk]; rfl)
    refine ⟨hrule, hpasses.of_le hle ha hn, start, ident, ?_, hrest.of_le hle ha hstart⟩
    rw [Graph.kind_of_le hle hstart, hk]

/-- The path to an element, with the rules that were opened since the last token but for the one
that the element starts. -/
structure Opened (graph : Graph) (g : Grammar) (e : PathElement) (els : List PathElement)
    (frames : List Frame) (rules : List RuleId) : Prop where
  placed : Placed graph g (e :: els) frames
  opened : openSince graph (e :: els) = (graph.kind e.node).startedRule?.toList ++ rules
  window : Window graph g rules frames e.node

namespace Nested

/-- A body is left to a node in front of it. -/
theorem stop_lt (h : Nested graph g (f :: fs)) (hfs : fs ≠ []) : f.stop < f.lo := by
  cases h with
  | base => exact absurd rfl hfs
  | cons _ _ _ hbehind hstop => exact lt_of_lt_of_le hstop.2 hbehind

theorem isRuleEnd_stop (h : Nested graph g (f :: fs)) : (graph.kind f.stop).isRuleEnd = true := by
  cases h with
  | base hbase =>
    rw [show graph.kind (Frame.base g).stop = _ from Graph.kind_rootEnd hbase]
    rfl
  | cons _ _ _ _ _ hk =>
    rw [hk]
    rfl

end Nested

theorem labels_eq_nil (h : (graph.kind n).startedRule? = none)
    (hslot : (graph.kind n).isSlot = false) : (graph.kind n).labels = [] := by
  cases hk : graph.kind n with
  | ruleStart =>
    rw [hk] at h
    exact absurd h nofun
  | slot =>
    rw [hk] at hslot
    exact absurd hslot nofun
  | _ => rfl

theorem mem_onward (hm : m ∈ graph.targets n) : m ∈ graph.onward n := by
  unfold Graph.onward
  split
  · next hk =>
    rw [Graph.targets, hk] at hm
    exact absurd hm List.not_mem_nil
  · exact hm

theorem Placed.lt_size_of_mem (h : Placed graph g els frames) : ∀ e ∈ els, e.node < graph.size := by
  induction els generalizing frames with
  | nil => exact fun e he => absurd he List.not_mem_nil
  | cons e els ih =>
    refine List.forall_mem_cons.mpr ⟨h.lt_size, ?_⟩
    cases els with
    | nil => exact fun e he => absurd he List.not_mem_nil
    | cons parent els =>
      obtain ⟨frames', hplaced⟩ := h.pop (List.cons_ne_nil _ _)
      exact ih hplaced

theorem openSince_of_le (hle : a ≤ b) : ∀ {els : List PathElement}, (∀ e ∈ els, e.node < a.size) →
    openSince b els = openSince a els
  | [], _ => rfl
  | e :: els, h => by
    obtain ⟨he, hels⟩ := List.forall_mem_cons.mp h
    rw [openSince, openSince, Graph.kind_of_le hle he, openSince_of_le hle hels]

namespace Opened

theorem of_le (h : Opened a g e els frames rules) (hle : a ≤ b) (ha : a.WellFormed) :
    Opened b g e els frames rules where
  placed := h.placed.of_le hle
  opened := by
    rw [openSince_of_le hle h.placed.lt_size_of_mem, h.opened,
      Graph.kind_of_le hle h.placed.lt_size]
  window := h.window.of_le hle ha h.placed.lt_size

/-- While a rule is open that was opened since the last token, what is left takes no token. -/
theorem labels_eq_nil (h : Opened a g tip els frames (rule :: rules)) (hn : n ∈ a.targets tip.node)
    (htip : (a.kind tip.node).isSlot = true → tip.token.isSome = true) :
    (a.kind tip.node).labels = [] := by
  refine Path.labels_eq_nil (startedRule?_of_mem_targets hn) (Bool.eq_false_iff.mpr fun hslot => ?_)
  have hopen := h.opened
  rw [openSince_of_isSome (htip hslot), startedRule?_of_mem_targets hn] at hopen
  exact absurd hopen (List.cons_ne_nil _ _).symm

/-- The path goes on within the innermost body. -/
theorem inside (h : Opened a g tip els (f :: fs) rules)
    (htip : (a.kind tip.node).isSlot = true → tip.token.isSome = true) (hn : n ∈ a.targets tip.node)
    (hf : f.Holds n) (hend : (a.kind n).isRuleEnd = false) :
    Opened a g ⟨n, none⟩ (tip :: els) (f :: fs) rules := by
  refine ⟨.inside h.placed hn hf hend nofun, ?_, ?_⟩
  · rw [openSince_of_not_isRuleEnd hend, h.opened, startedRule?_of_mem_targets hn]
    rfl
  · cases rules with
    | nil => trivial
    | cons rule rules =>
      obtain ⟨hrule, hpasses, hrest⟩ := h.window
      obtain ⟨f', fs', hframes, hholds⟩ := h.placed.holds_tip
      obtain ⟨rfl, rfl⟩ := List.cons.inj hframes
      obtain ⟨f', fs', rfl⟩ := h.placed.nested.exists_outer hholds hn
      have hlt := lt_of_lt_of_le (h.placed.nested.stop_lt (List.cons_ne_nil _ _)) hholds.1
      refine ⟨hrule, hpasses.hop (Nat.ne_of_lt hlt) (mem_onward hn) fun l hl => ?_, hrest⟩
      rw [h.labels_eq_nil hn htip] at hl
      exact absurd hl List.not_mem_nil

/-- The path leaves the innermost body. -/
theorem leave {f' : Frame} (h : Opened a g tip els (f' :: f :: fs) rules)
    (htip : (a.kind tip.node).isSlot = true → tip.token.isSome = true)
    (hn : f'.stop ∈ a.targets tip.node) :
    Opened a g ⟨f'.stop, none⟩ (tip :: els) (f :: fs) rules.tail := by
  obtain ⟨ident, hk⟩ := h.placed.nested.kind_stop
  refine ⟨.leave h.placed hn, ?_, ?_⟩
  · rw [openSince_of_isRuleEnd (by rw [hk]; rfl), h.opened, startedRule?_of_mem_targets hn, hk]
    rfl
  · match rules, h with
    | [], _ | [_], _ => trivial
    | _ :: rule :: rules, h =>
      obtain ⟨rfl, hinner, start, ident', hstart, hrule, hpasses, hrest⟩ := h.window
      obtain ⟨f'', fs'', hframes, hholds⟩ := h.placed.holds_tip
      obtain ⟨rfl, rfl⟩ := List.cons.inj hframes
      have hlt := lt_of_lt_of_le (h.placed.nested.stop_lt (List.cons_ne_nil _ _)) hholds.1
      have hexit : Passes a g f' f'.stop :=
        hinner.hop (Nat.ne_of_lt hlt) (mem_onward hn) fun l hl => by
        rw [h.labels_eq_nil hn htip] at hl
        exact absurd hl List.not_mem_nil
      have hne : f.stop ≠ start := by
        intro heq
        cases h.placed.nested with
        | cons hnested =>
          have hend := hnested.isRuleEnd_stop
          rw [heq, hstart] at hend
          exact absurd hend nofun
      refine ⟨hrule, hpasses.hop hne (by rw [Graph.onward, hstart]; exact List.mem_singleton_self _)
        fun l hl => ?_, hrest⟩
      rw [hstart] at hl
      obtain rfl := List.mem_singleton.mp hl
      exact hexit.nullable ident'

/-- The path enters the body of a rule. -/
theorem enter {f' : Frame} {ident : Option String} {p : Piece}
    (h : Opened a g tip els (f :: fs) rules)
    (hk : a.kind tip.node = .ruleStart f'.rule ident f'.stop)
    (hexpand : g.expand? f'.rule = some fun _ => .ofPiece p) (hbody : a.BodyOf p f'.lo f'.stop)
    (hlt : f'.stop < f'.lo) (hnested : Nested a g (f' :: f :: fs)) :
    Opened a g ⟨f'.lo, none⟩ (tip :: els) (f' :: f :: fs) (f'.rule :: rules) := by
  refine ⟨.enter h.placed hk hbody.entry hnested, ?_, ?_⟩
  · rw [openSince_of_not_isRuleEnd (by rw [hbody.entry]; rfl), h.opened, hk, hbody.entry]
    rfl
  · refine ⟨rfl, ⟨p, [], hexpand, fun l hl => absurd hl List.not_mem_nil, fun N w hwalk => ?_⟩,
      tip.node, ident, hk, h.window⟩
    exact (hbody.exists_walk_iff hlt).mp ⟨N, hwalk⟩

/-- A slot that waits for a token is not left. -/
theorem step {ctx : Context} {next : List NodeId} (h : Opened a g tip els frames rules)
    (hg : g.Regular) (ha : a.WellFormed) (htip : (a.kind tip.node).isSlot = true →
      tip.token.isSome = true) (hleaves : a.Leaves g tip.node ctx next b) (hn : n ∈ next) :
    ∃ frames' rules', Opened b g ⟨n, none⟩ (tip :: els) frames' rules' := by
  obtain ⟨f, fs, rfl, hholds⟩ := h.placed.holds_tip
  obtain ⟨frames', hmoves⟩ := h.placed.nested.exists_moves hg.endsApart hholds hleaves hn
  cases hmoves with
  | inside hgraph hn hf hend =>
    subst hgraph
    exact ⟨_, _, h.inside htip hn hf hend⟩
  | leave hgraph hn hstop =>
    subst hgraph hstop
    exact ⟨_, _, h.leave htip hn⟩
  | enter hk hlo hentry hnested =>
    subst hlo
    have hb := h.of_le hleaves.le ha
    rw [← Graph.kind_of_le hleaves.le h.placed.lt_size] at hk
    cases hleaves with
    | @enter rule ident stop expand hk' hexpand =>
      obtain ⟨p, hp, rfl⟩ := hg _ _ hexpand
      rw [← Graph.kind_of_le (Graph.addBody_hasBody a _ _).le h.placed.lt_size, hk] at hk'
      obtain ⟨rfl, rfl, rfl⟩ := NodeKind.ruleStart.inj hk'
      have hentry := List.mem_singleton.mp hn
      exact ⟨_, _, hb.enter hk hexpand (hentry ▸ Graph.bodyOf_addBody hp (le_refl _))
        (hnested.stop_lt (List.cons_ne_nil _ _)) hnested⟩
    | gate hk' | switch hk' =>
      rw [hk] at hk'
      exact absurd hk' nofun
    | wired hk' =>
      rw [hk] at hk'
      exact absurd hk' nofun

/-- A slot takes a token. -/
theorem take {type : TokenType} {ident : Option String} {hook : Option Hook}
    (h : Opened a g ⟨n, none⟩ els frames rules) (hk : a.kind n = .slot type ident hook)
    (t : Token) : Opened a g ⟨n, some t⟩ els frames [] := by
  refine ⟨h.placed.take hk t, ?_, trivial⟩
  rw [openSince_of_isSome rfl, hk]
  rfl

end Opened

/-! ## Nodes that a path does not return to -/

/-- Each of the open bodies can be walked to its end, from the node or from where the
body inside is left to. -/
def WalksOut (graph : Graph) : List Frame → NodeId → Prop
  | [], _ => True
  | f :: fs, n => (∃ N w, graph.Walk f.stop n N w) ∧ WalksOut graph fs f.stop

/-- Every rule that was opened since the last token begins with what is entered next. -/
theorem Window.begins {ident : Option String} {stop : NodeId} (h : Window graph g rules frames n)
    (hnested : Nested graph g frames) (hk : graph.kind n = .ruleStart rule ident stop)
    (hwalks : WalksOut graph frames stop) :
    ∀ rule' ∈ rules, Relation.TransGen g.Begins rule' rule := by
  induction rules generalizing frames n rule ident stop with
  | nil => exact fun rule' hmem => absurd hmem List.not_mem_nil
  | cons rule' rules ih =>
    cases frames with
    | nil => exact absurd h id
    | cons f fs =>
      obtain ⟨rfl, hpasses, start, ident', hstart, hrest⟩ := h
      obtain ⟨⟨N, w, hwalk⟩, hwalks⟩ := hwalks
      have hne : f.stop ≠ n := by
        intro heq
        have hend := hnested.isRuleEnd_stop
        rw [heq, hk] at hend
        exact absurd hend nofun
      have hbegins := hpasses.begins hne hk hwalk
      refine List.forall_mem_cons.mpr ⟨.single hbegins, fun rule' hmem => ?_⟩
      cases fs with
      | nil =>
        cases rules with
        | nil => exact absurd hmem List.not_mem_nil
        | cons => exact absurd hrest id
      | cons f' fs =>
        cases hnested with
        | cons hnested => exact (ih hrest hnested hstart hwalks rule' hmem).tail hbegins

theorem mem_visited_of_revisits (hn : (graph.kind n).startedRule? = none) :
    ∀ {closed : ℕ} {els : List PathElement}, revisitsIn graph n closed els = true → n ∈ visited els
  | _, [], h => absurd h (by simp [revisitsIn])
  | closed, ⟨m, some t⟩ :: els, h => by
    rw [revisitsIn.eq_def] at h
    cases h
  | closed, ⟨m, none⟩ :: els, h => by
    rw [visited_cons_none]
    rw [revisitsIn.eq_def] at h
    simp only [hn, Option.isSome_none, Bool.false_eq_true, if_false] at h
    split at h
    · next heq => exact heq ▸ List.mem_cons_self
    · exact List.mem_cons_of_mem _ (mem_visited_of_revisits hn h)

/-- Without left recursion a path returns to visited nodes only. -/
theorem Opened.not_revisits (h : Opened graph g ⟨n, none⟩ els frames rules) (hels : els ≠ [])
    (hg : g.NotLeftRecursive) (hvisited : n ∉ visited els)
    (hwalks : ∀ rule ident stop, graph.kind n = .ruleStart rule ident stop →
      WalksOut graph frames stop) : revisitsIn graph n 0 els = false := by
  refine Bool.eq_false_iff.mpr fun hrev => ?_
  cases hk : graph.kind n with
  | ruleStart rule ident stop =>
    obtain ⟨frames', hplaced⟩ := h.placed.pop hels
    have hcount := hplaced.lt_count_of_revisits (by rw [hk]; rfl) hvisited hrev
    have hopen := h.opened
    rw [openSince_of_not_isRuleEnd (by rw [hk]; rfl)] at hopen
    rw [List.append_cancel_left hopen] at hcount
    exact hg rule (h.window.begins h.placed.nested hk (hwalks rule ident stop hk) rule
      (List.count_pos_iff.mp hcount))
  | _ => exact hvisited (mem_visited_of_revisits (by rw [hk]; rfl) hrev)

end Path

end GrammarGraph
