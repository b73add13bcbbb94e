import GrammarGraph.Search.Walk
import Mathlib.Data.Finset.Card

/-!
# The order of arenas

Arenas are ordered by extension: `a ≤ b` when `b` starts with the nodes of `a`.  Nodes are only ever
added at the end, so releasing the nodes of an extension gives the older arena back
(`Graph.truncate_of_le`).
-/

namespace GrammarGraph

namespace NodeKind

/-- The nodes that a node can be left to without wiring anything, in some context; `wired` are the
successors that it was linked to. -/
def targets (wired : List NodeId) : NodeKind → List NodeId
  | ruleStart .. => []
  | gate _ target => [target]
  | switch branches _ => branches.map (·.2)
  | _ => wired

/-- A plain node is left to the nodes that it is linked to, whatever the context. -/
def isPlain : NodeKind → Bool
  | ruleEnd .. | slot .. | junction => true
  | _ => false

variable {k : NodeKind}

theorem targets_of_isPlain (h : k.isPlain = true) (wired : List NodeId) :
    k.targets wired = wired := by
  cases k <;> first | rfl | exact absurd h (by simp [isPlain])

theorem isPlain_of_isRuleEnd (h : k.isRuleEnd = true) : k.isPlain = true := by
  cases k with
  | ruleEnd => rfl
  | _ => exact absurd h nofun

theorem isRuleEnd_of_isSlot (h : k.isSlot = true) : k.isRuleEnd = false := by
  cases k <;> first | rfl | exact absurd h nofun

end NodeKind

namespace Graph

/-! ## Extensions -/

instance : LE Graph :=
  ⟨fun a b => a.size ≤ b.size ∧ ∀ id, id < a.size → b.nodes[id]? = a.nodes[id]?⟩

instance : Preorder Graph where
  le_refl a := ⟨le_refl _, fun _ _ => rfl⟩
  le_trans a b c hab hbc :=
    ⟨le_trans hab.1 hbc.1, fun id h => (hbc.2 id (lt_of_lt_of_le h hab.1)).trans (hab.2 id h)⟩

variable {a b base g : Graph} {id n : NodeId} {e : Element}

/-- The nodes that a node can be left to without wiring anything, in some context. -/
def targets (g : Graph) (id : NodeId) : List NodeId := (g.kind id).targets (g.wired id)

theorem kind_of_le (h : a ≤ b) (hid : id < a.size) : b.kind id = a.kind id := by
  simp only [kind, h.2 id hid]

theorem wired_of_le (h : a ≤ b) (hid : id < a.size) : b.wired id = a.wired id := by
  simp only [wired, h.2 id hid]

theorem targets_of_le (h : a ≤ b) (hid : id < a.size) : b.targets id = a.targets id := by
  simp only [targets, kind_of_le h hid, wired_of_le h hid]

theorem kind_of_size_le (h : g.size ≤ id) : g.kind id = .junction := by
  have hn : g.nodes[id]? = none := Array.getElem?_eq_none_iff.mpr h
  simp only [kind, hn]

theorem wired_of_size_le (h : g.size ≤ id) : g.wired id = [] := by
  have hn : g.nodes[id]? = none := Array.getElem?_eq_none_iff.mpr h
  simp only [wired, hn]

theorem lt_size_of_mem_wired (h : n ∈ g.wired id) : id < g.size := by
  by_contra hid
  rw [wired_of_size_le (not_lt.mp hid)] at h
  exact absurd h List.not_mem_nil

/-- A node that leads somewhere is in the arena. -/
theorem lt_size_of_mem_targets (h : n ∈ g.targets id) : id < g.size := by
  by_contra hid
  rw [targets, kind_of_size_le (not_lt.mp hid), wired_of_size_le (not_lt.mp hid)] at h
  simp [NodeKind.targets] at h

theorem lt_size_of_kind_ne (h : g.kind id ≠ .junction) : id < g.size := by
  by_contra hid
  exact h (kind_of_size_le (not_lt.mp hid))

theorem lt_size_of_startedRule {rule : RuleId} (h : (g.kind id).startedRule? = some rule) :
    id < g.size :=
  lt_size_of_kind_ne fun hk => by simp [hk, NodeKind.startedRule?] at h

theorem lt_size_of_isRuleEnd (h : (g.kind id).isRuleEnd = true) : id < g.size :=
  lt_size_of_kind_ne fun hk => by simp [hk, NodeKind.isRuleEnd] at h

theorem lt_size_of_isSlot (h : (g.kind id).isSlot = true) : id < g.size :=
  lt_size_of_kind_ne fun hk => by simp [hk, NodeKind.isSlot] at h

theorem nodes_truncate {m : Nat} (hid : id < max m 2) :
    (g.truncate m).nodes[id]? = g.nodes[id]? := by
  rw [← Array.getElem?_toList, truncate, Array.toList_shrink, List.getElem?_take_of_lt hid,
    Array.getElem?_toList]

/-- Releasing the nodes of an extension gives the older arena back. -/
theorem truncate_of_le (h : a ≤ b) (ha : 2 ≤ a.size) : b.truncate a.size = a := by
  have hsize : (b.truncate a.size).size = a.size := by
    rw [size_truncate, max_eq_left ha, min_eq_left h.1]
  have hnodes : (b.truncate a.size).nodes = a.nodes := by
    apply Array.ext_getElem?
    intro id
    by_cases hid : id < a.size
    · rw [nodes_truncate (lt_of_lt_of_le hid (le_max_left _ _)), h.2 id hid]
    · rw [Array.getElem?_eq_none_iff.mpr (by rw [← hsize] at hid; exact not_lt.mp hid),
        Array.getElem?_eq_none_iff.mpr (not_lt.mp hid)]
  cases a
  cases hb : b.truncate _
  rw [hb] at hnodes
  simpa using hnodes

/-! ## Adding nodes and links -/

theorem nodes_add (k : NodeKind) :
    (g.add k).2.nodes[id]? = if id = g.size then some { kind := k } else g.nodes[id]? := by
  simp only [add, Array.getElem?_push]
  rfl

theorem kind_add (k : NodeKind) : (g.add k).2.kind id = if id = g.size then k else g.kind id := by
  by_cases h : id = g.size <;> simp only [kind, nodes_add, h, if_true, if_false]

@[simp] theorem wired_add (k : NodeKind) : (g.add k).2.wired id = g.wired id := by
  by_cases h : id = g.size
  · rw [wired_of_size_le (le_of_eq h.symm)]
    simp only [wired, nodes_add, if_pos h]
  · simp only [wired, nodes_add, if_neg h]

theorem le_add (h : base ≤ g) (k : NodeKind) : base ≤ (g.add k).2 := by
  refine ⟨by rw [size_add]; exact le_trans h.1 (Nat.le_succ _), ?_⟩
  intro id hid
  rw [nodes_add, if_neg (ne_of_lt (lt_of_lt_of_le hid h.1)), h.2 id hid]

theorem nodes_connect_of_ne {s t : NodeId} (h : id ≠ s) :
    (g.connect s t).nodes[id]? = g.nodes[id]? := by
  simp only [connect, Array.getElem?_modify, if_neg (Ne.symm h)]

@[simp] theorem kind_connect (g : Graph) (s t id : NodeId) :
    (g.connect s t).kind id = g.kind id := by
  by_cases h : s = id
  · simp only [kind, connect, Array.getElem?_modify, if_pos h]
    cases g.nodes[id]? with
    | none => rfl
    | some node => simp only [Option.map_some]; split <;> rfl
  · simp only [kind, nodes_connect_of_ne (Ne.symm h)]

theorem wired_connect (g : Graph) (s t id : NodeId) :
    (g.connect s t).wired id = g.wired id ∨
      (id = s ∧ t ∉ g.wired id ∧ (g.connect s t).wired id = g.wired id ++ [t]) := by
  by_cases h : s = id
  · subst h
    simp only [wired, connect, Array.getElem?_modify, if_pos]
    cases hn : g.nodes[s]? with
    | none => simp
    | some node =>
      by_cases ht : t ∈ node.successors
      · simp [ht]
      · simp [ht]
  · exact .inl (by simp only [wired, nodes_connect_of_ne (Ne.symm h)])

theorem mem_wired_connect {s t : NodeId} (h : n ∈ (g.connect s t).wired id) :
    n ∈ g.wired id ∨ (id = s ∧ n = t) := by
  rcases wired_connect g s t id with hw | ⟨hid, -, hw⟩
  · exact .inl (hw ▸ h)
  · rw [hw, List.mem_append, List.mem_singleton] at h
    exact h.imp_right fun hn => ⟨hid, hn⟩

theorem nodup_wired_connect {s t : NodeId} (h : (g.wired id).Nodup) :
    ((g.connect s t).wired id).Nodup := by
  rcases wired_connect g s t id with hw | ⟨-, ht, hw⟩
  · rwa [hw]
  · rw [hw]
    exact List.Nodup.append h (List.nodup_singleton t) (by simpa using ht)

theorem le_connect {s t : NodeId} (h : base ≤ g) (hs : base.size ≤ s) : base ≤ g.connect s t := by
  refine ⟨by rw [size_connect]; exact h.1, ?_⟩
  intro id hid
  rw [nodes_connect_of_ne (ne_of_lt (lt_of_lt_of_le hid hs)), h.2 id hid]

theorem size_le_connect (g : Graph) (s t : NodeId) : g.size ≤ (g.connect s t).size :=
  le_of_eq (size_connect g s t).symm

end Graph

end GrammarGraph
