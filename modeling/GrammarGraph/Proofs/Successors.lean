import GrammarGraph.Proofs.Wiring

/-!
# Regions and successors

The nodes of a body form a region of their own: every link from one of them leads to another one,
except for the link behind the exit, which leads to the end of the rule instance.

* `Graph.addBody_hasBody`: wiring a body extends the arena by a `Graph.Region`.
* `Graph.leaves_of_successors`: what a node is left to, by its kind.
-/

namespace GrammarGraph

namespace Graph

variable {apart : Prop} {a b g : Graph}

/-! ## Regions -/

/-- The nodes from `lo` on and below `hi` belong together: what they lead to is one of them, unless
it is `stop`, and the end that a rule start names is one of them. -/
structure Region (g : Graph) (lo hi : Nat) (stop : NodeId) : Prop where
  lt : lo < hi
  le : hi ≤ g.size
  targets : ∀ id, lo ≤ id → id < hi → ∀ n ∈ g.targets id, n = stop ∨ (lo ≤ n ∧ n < hi)
  stops : ∀ id rule ident s, lo ≤ id → id < hi → g.kind id = .ruleStart rule ident s →
    lo ≤ s ∧ s < hi ∧ g.kind s = .ruleEnd rule ident

theorem Region.of_le {lo hi : Nat} {stop : NodeId} (hab : a ≤ b) (h : a.Region lo hi stop) :
    b.Region lo hi stop where
  lt := h.lt
  le := le_trans h.le hab.1
  targets id hlo hhi n hn := by
    rw [targets_of_le hab (lt_of_lt_of_le hhi h.le)] at hn
    exact h.targets id hlo hhi n hn
  stops id rule ident s hlo hhi hk := by
    rw [kind_of_le hab (lt_of_lt_of_le hhi h.le)] at hk
    obtain ⟨hlo', hhi', hk'⟩ := h.stops id rule ident s hlo hhi hk
    exact ⟨hlo', hhi', by rw [kind_of_le hab (lt_of_lt_of_le hhi' h.le)]; exact hk'⟩

/-- What wiring a body on top of `base` gives. -/
structure HasBody (base g : Graph) (stop : NodeId) : Prop where
  le : base ≤ g
  region : g.Region base.size g.size stop
  entry : g.kind base.size = .junction
  nodup : ∀ id, base.size ≤ id → (g.wired id).Nodup

/-- A body is wired between an entry and an exit, which its clauses can refer to. -/
theorem wires_entry_exit (base : Graph) : Wires apart base base.addEnds.2 ∧
    base.addEnds.2.HasParts apart base.size ⟨base.addEnds.1.socket, base.addEnds.1.plug, #[]⟩ := by
  obtain ⟨hends, hexit⟩ := (Wires.refl base).addEnds
  exact ⟨hends.wires, hends.part.socket, hexit, fun e he => by simp at he⟩

/-- The parts of a body are linked among themselves, and the last link, from the
exit to `stop`, leads out. -/
theorem addBody_eq_connect (base : Graph) (body : Body) (hbody : apart → body.AtSockets)
    (stop : NodeId) : ∃ w exit, (base.addBody body stop).2 = w.connect exit stop ∧
      Wires apart base w ∧ w.Socket apart base.size exit ∧ w.Socket apart base.size base.size ∧
      w.kind base.size = .junction := by
  obtain ⟨hends, hparts⟩ := wires_entry_exit base
  obtain ⟨hw, hg⟩ := Body.wire_wires body hends hparts hbody
  have hkind : base.addEnds.2.kind base.size = .junction := by
    rw [addEnds, kind_add, size_add, if_neg (Nat.ne_of_lt (Nat.lt_succ_self _)), kind_add,
      if_pos rfl]
  exact ⟨_, _, rfl, hw, hparts.exit.grown hg, hparts.entry.grown hg,
    (hg.kind_eq _ hparts.entry.lt).trans hkind⟩

/-- The nodes of a body form a region. -/
theorem addBody_hasBody (base : Graph) (body : Body) (stop : NodeId) :
    HasBody base (base.addBody body stop).2 stop := by
  obtain ⟨w, exit, heq, hw, hexit, hentry, hkind⟩ := addBody_eq_connect base body False.elim stop
  rw [heq]
  refine ⟨le_connect hw.le hexit.le, ⟨?_, le_refl _, ?_, ?_⟩, ?_, ?_⟩
  · exact lt_of_lt_of_le hentry.lt (size_le_connect _ _ _)
  · intro id hlo _ n hn
    rcases targets_connect hn with hn | ⟨-, rfl⟩
    · have hn' := (hw.targets id hlo n hn).grown (grown_connect w exit stop)
      exact .inr ⟨hn'.le, hn'.lt⟩
    · exact .inl rfl
  · intro id rule ident s hlo _ hk
    simp only [kind_connect, size_connect] at hk ⊢
    exact hw.stops id rule ident s hlo hk
  · rw [kind_connect]
    exact hkind
  · exact fun id hlo => nodup_wired_connect (hw.nodup id hlo)

/-! ## Well-formed arenas -/

/-- The ends of the root rule are there, links are drawn once, and no link leads out of the
arena. -/
structure WellFormed (g : Graph) : Prop where
  two_le : 2 ≤ g.size
  nodup : ∀ id, (g.wired id).Nodup
  targets_lt : ∀ id, ∀ n ∈ g.targets id, n < g.size
  stop_lt : ∀ id rule ident stop, g.kind id = .ruleStart rule ident stop → stop < g.size

theorem HasBody.wellFormed {stop : NodeId} (h : HasBody a b stop) (ha : a.WellFormed)
    (hs : stop < a.size) : b.WellFormed where
  two_le := le_trans ha.two_le h.le.1
  nodup id := by
    by_cases hid : id < a.size
    · rw [wired_of_le h.le hid]
      exact ha.nodup id
    · exact h.nodup id (not_lt.mp hid)
  targets_lt id n hn := by
    by_cases hid : id < a.size
    · rw [targets_of_le h.le hid] at hn
      exact lt_of_lt_of_le (ha.targets_lt id n hn) h.le.1
    · rcases h.region.targets id (not_lt.mp hid) (lt_size_of_mem_targets hn) n hn with rfl | hn'
      · exact lt_of_lt_of_le hs h.le.1
      · exact hn'.2
  stop_lt id rule ident s hk := by
    by_cases hid : id < a.size
    · rw [kind_of_le h.le hid] at hk
      exact lt_of_lt_of_le (ha.stop_lt id rule ident s hk) h.le.1
    · have hlt : id < b.size := lt_size_of_startedRule (by rw [hk]; rfl)
      exact (h.region.stops id rule ident s (not_lt.mp hid) hlt hk).2.1

theorem targets_ofGrammar (g : Grammar) (id : NodeId) : (ofGrammar g).targets id = [] := by
  match id with
  | 0 | 1 => rfl
  | n + 2 =>
    apply List.eq_nil_iff_forall_not_mem.mpr
    intro m hm
    have hlt := lt_size_of_mem_targets hm
    exact absurd hlt (Nat.not_lt.mpr (Nat.le_add_left 2 n))

theorem wellFormed_ofGrammar (g : Grammar) : (ofGrammar g).WellFormed where
  two_le := le_refl 2
  nodup id := by
    match id with
    | 0 | 1 => exact List.nodup_nil
    | n + 2 =>
      rw [wired_of_size_le (Nat.le_add_left 2 n)]
      exact List.nodup_nil
  targets_lt id n hn := by
    rw [targets_ofGrammar] at hn
    exact absurd hn List.not_mem_nil
  stop_lt id rule ident stop hk := by
    match id, hk with
    | 1, hk =>
      injection hk with _ _ hs
      rw [← hs]
      exact Nat.zero_lt_succ 1
    | n + 2, hk =>
      rw [kind_of_size_le (Nat.le_add_left 2 n)] at hk
      exact absurd hk (by simp)

/-! ## Successors -/

variable {grammar : Grammar} {id n : NodeId} {ctx : Context} {next : List NodeId}

/-- How the successors of a node come about: a rule start wires a body, all
other nodes have theirs. -/
inductive Leaves (a : Graph) (grammar : Grammar) (id : NodeId) (ctx : Context) :
    List NodeId → Graph → Prop
  /-- A rule start is left to the entry of a fresh body. -/
  | enter {rule ident stop expand} : a.kind id = .ruleStart rule ident stop →
      grammar.expand? rule = some expand →
      Leaves a grammar id ctx [a.size] (a.addBody (expand ctx) stop).2
  /-- A gate is left to its target while the guard holds. -/
  | gate {guard target} : a.kind id = .gate guard target → guard ctx = true →
      Leaves a grammar id ctx [target] a
  /-- A switch is left to the branch of the keyword of the coming token, if there is one. -/
  | switch {branches target} : a.kind id = .switch branches target →
      Leaves a grammar id ctx (ctx.keyword?.bind fun key => branches.lookup key).toList a
  /-- Any other node is left to the nodes it is linked to, whatever the context. -/
  | wired : (a.kind id).isPlain = true → Leaves a grammar id ctx (a.wired id) a

theorem leaves_of_successors (h : a.successors grammar id ctx = (some next, b)) :
    Leaves a grammar id ctx next b := by
  unfold successors at h
  cases hk : a.kind id <;> rw [hk] at h <;> simp only at h
  case ruleStart rule ident stop =>
    cases he : grammar.expand? rule <;> rw [he] at h <;> simp only [Prod.mk.injEq] at h
    · exact absurd h.1 (by simp)
    · obtain ⟨hn, rfl⟩ := h
      obtain rfl := Option.some.inj hn
      exact .enter hk he
  case gate guard target =>
    obtain ⟨hn, rfl⟩ := Prod.mk.inj h
    split at hn
    · next hguard =>
      obtain rfl := Option.some.inj hn
      exact .gate hk hguard
    · exact absurd hn (by simp)
  case switch branches target =>
    obtain ⟨hn, rfl⟩ := Prod.mk.inj h
    obtain rfl := Option.some.inj hn
    exact .switch hk
  all_goals
    obtain ⟨hn, rfl⟩ := Prod.mk.inj h
    obtain rfl := Option.some.inj hn
    exact .wired (by rw [hk]; rfl)

theorem successors_none (h : a.successors grammar id ctx = (none, b)) : b = a := by
  unfold successors at h
  split at h
  · split at h
    · exact (Prod.mk.inj h).2.symm
    · exact absurd (Prod.mk.inj h).1 (by simp)
  all_goals exact (Prod.mk.inj h).2.symm

/-- The successors of a plain node are its links, whatever the context. -/
theorem successors_of_isPlain (grammar : Grammar) (h : (g.kind id).isPlain = true) (ctx : Context) :
    g.successors grammar id ctx = (some (g.wired id), g) := by
  unfold successors
  split
  · next hk => rw [hk] at h; exact absurd h (by simp [NodeKind.isPlain])
  · next hk => rw [hk] at h; exact absurd h (by simp [NodeKind.isPlain])
  · next hk => rw [hk] at h; exact absurd h (by simp [NodeKind.isPlain])
  · rfl

/-- A rule start is left into a fresh body. -/
theorem successors_of_ruleStart {rule : RuleId} {ident : Option String} {stop : NodeId}
    {expand : Context → Body} (hk : g.kind id = .ruleStart rule ident stop)
    (hexpand : grammar.expand? rule = some expand) (ctx : Context) :
    g.successors grammar id ctx = (some [g.size], (g.addBody (expand ctx) stop).2) := by
  simp only [successors, hk, hexpand]
  rfl

/-- A plain node can always be left. -/
theorem isPlain_of_successors_none (h : (a.successors grammar id ctx).1 = none) :
    (a.kind id).isPlain = false := by
  unfold successors at h
  cases hk : a.kind id with
  | ruleStart | gate | switch => rfl
  | ruleEnd | slot | junction =>
    rw [hk] at h
    exact absurd h (by simp)

namespace Leaves

theorem le (h : Leaves a grammar id ctx next b) : a ≤ b := by
  cases h with
  | enter => exact (addBody_hasBody a _ _).le
  | gate | switch | wired => exact le_refl a

theorem wellFormed (h : Leaves a grammar id ctx next b) (ha : a.WellFormed) : b.WellFormed := by
  cases h with
  | enter hk => exact (addBody_hasBody a _ _).wellFormed ha (ha.stop_lt _ _ _ _ hk)
  | gate | switch | wired => exact ha

/-- A rule start is left to the entry of what it wired, any other node to one of its targets. -/
theorem mem_targets_or_entry (h : Leaves a grammar id ctx next b) (hn : n ∈ next) :
    (n ∈ a.targets id ∧ b = a) ∨
      (n = a.size ∧ ∃ rule ident stop, a.kind id = .ruleStart rule ident stop ∧
      (grammar.expand? rule).isSome ∧ HasBody a b stop) := by
  cases h with
  | enter hk he =>
    refine .inr ⟨List.mem_singleton.mp hn, _, _, _, hk, ?_, addBody_hasBody a _ _⟩
    rw [he]
    rfl
  | gate hk => exact .inl ⟨by rw [targets, hk]; exact hn, rfl⟩
  | switch hk =>
    refine .inl ⟨?_, rfl⟩
    rw [targets, hk]
    rw [Option.mem_toList] at hn
    obtain ⟨key, -, hlookup⟩ := Option.bind_eq_some_iff.mp hn
    obtain ⟨before, behind, rfl, -⟩ := List.lookup_eq_some_iff.mp hlookup
    exact List.mem_map.mpr ⟨(key, n), List.mem_append_right _ List.mem_cons_self, rfl⟩
  | wired hk =>
    rw [← NodeKind.targets_of_isPlain hk (a.wired id)] at hn
    exact .inl ⟨hn, rfl⟩

/-- The start of a rule is left into the body that the rule gives in the context. -/
theorem of_ruleStart {rule : RuleId} {ident : Option String} {stop : NodeId}
    (h : Leaves a grammar id ctx next b) (hk : a.kind id = .ruleStart rule ident stop) :
    ∃ expand, grammar.expand? rule = some expand ∧ b = (a.addBody (expand ctx) stop).2 := by
  cases h with
  | enter hk' hexpand =>
    obtain ⟨rfl, -, rfl⟩ := NodeKind.ruleStart.inj (hk'.symm.trans hk)
    exact ⟨_, hexpand, rfl⟩
  | gate hk' | switch hk' => exact absurd (hk'.symm.trans hk) nofun
  | wired hk' =>
    rw [hk] at hk'
    cases hk'

theorem lt_size (h : Leaves a grammar id ctx next b) (ha : a.WellFormed) (hn : n ∈ next) :
    n < b.size := by
  rcases h.mem_targets_or_entry hn with ⟨hn, rfl⟩ | ⟨rfl, _, _, _, -, -, hbody⟩
  · exact ha.targets_lt id n hn
  · exact hbody.region.lt

end Leaves

end Graph

end GrammarGraph
