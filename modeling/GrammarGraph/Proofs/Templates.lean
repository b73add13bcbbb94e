import GrammarGraph.Proofs.Shapes

/-!
# Bodies as templates

What wiring a body adds to an arena does not depend on the arena: it is a copy of what wiring it in
an empty one gives, moved behind the nodes that are there (`Graph.addBody_eq`).  So the nodes of a
body and their links can be read off a table that is computed once (`Graph.Holds`).
-/

namespace GrammarGraph

/-- The kind of a node that is moved `k` places up. -/
def NodeKind.moved (k : Nat) : NodeKind → NodeKind
  | ruleStart rule ident stop => ruleStart rule ident (k + stop)
  | gate guard target => gate guard (k + target)
  | switch branches target => switch (branches.map fun (key, n) => (key, k + n)) (k + target)
  | kind => kind

@[simp] theorem NodeKind.startedRule?_moved (k : Nat) (kind : NodeKind) :
    (kind.moved k).startedRule? = kind.startedRule? := by
  cases kind <;> rfl

@[simp] theorem NodeKind.isRuleEnd_moved (k : Nat) (kind : NodeKind) :
    (kind.moved k).isRuleEnd = kind.isRuleEnd := by
  cases kind <;> rfl

theorem NodeKind.mem_targets_moved {kind : NodeKind} {k n : Nat} {wired behind : List NodeId}
    (h : n ∈ (kind.moved k).targets (wired.map (k + ·) ++ behind)) :
    (∃ j ∈ kind.targets wired, n = k + j) ∨ n ∈ behind := by
  cases kind with
  | ruleStart => exact absurd h List.not_mem_nil
  | gate guard target =>
    exact .inl ⟨target, List.mem_singleton_self target, List.mem_singleton.mp h⟩
  | switch branches target =>
    obtain ⟨branch, hbranch, rfl⟩ := List.mem_map.mp h
    obtain ⟨⟨key, j⟩, hj, rfl⟩ := List.mem_map.mp hbranch
    exact .inl ⟨j, List.mem_map_of_mem hj, rfl⟩
  | ruleEnd | slot | junction =>
    refine (List.mem_append.mp h).imp_left fun h => ?_
    obtain ⟨j, hj, rfl⟩ := List.mem_map.mp h
    exact ⟨j, hj, rfl⟩

def Node.moved (k : Nat) (n : Node) : Node := ⟨n.kind.moved k, n.successors.map (k + ·)⟩

def Element.moved (k : Nat) (e : Element) : Element := ⟨k + e.socket, k + e.plug⟩

namespace Graph

variable {base t : Graph} {k : NodeKind} {e e' : Element} {es : List Element}

/-- A copy of the nodes of `t` behind those of `base`. -/
def above (base t : Graph) : Graph := ⟨base.nodes ++ t.nodes.map (Node.moved base.size)⟩

@[simp] theorem size_above (base t : Graph) : (base.above t).size = base.size + t.size := by
  simp [above, size]

/-- Adding a node above and adding it to the copied arena come to the same. -/
theorem add_above (base t : Graph) (k : NodeKind) :
    (base.above t).add (k.moved base.size) = (base.size + (t.add k).1, base.above (t.add k).2) := by
  rw [add, size_above]
  simp [add, above, Array.map_push, Node.moved]

theorem connect_above (base t : Graph) (s n : Nat) :
    (base.above t).connect (base.size + s) (base.size + n) = base.above (t.connect s n) := by
  have hsize : base.size = base.nodes.size := rfl
  simp only [connect, above, mk.injEq]
  apply Array.ext_getElem?
  intro i
  rw [Array.getElem?_modify, Array.getElem?_append, Array.getElem?_append]
  by_cases hi : i < base.nodes.size
  · have hne : base.size + s ≠ i := by omega
    simp only [if_pos hi, if_neg hne]
  · have hs : base.size + s = i ↔ s = i - base.nodes.size := by omega
    simp only [if_neg hi, Array.getElem?_map, Array.getElem?_modify, hs]
    split
    · cases t.nodes[i - base.nodes.size]? with
      | none => rfl
      | some node =>
        simp only [Option.map_some, Node.moved, List.contains_eq_mem, List.mem_map,
          Nat.add_right_inj, exists_eq_right,
          decide_eq_true_eq]
        split <;> simp
    · rfl

theorem chain_above (base : Graph) : ∀ (es : List Element) (t : Graph),
    (base.above t).chain (es.map (Element.moved base.size)) = base.above (t.chain es)
  | [], _ | [_], _ => rfl
  | a :: b :: rest, t => by
    rw [List.map_cons, List.map_cons, chain, chain, ← List.map_cons, ← chain_above base (b :: rest),
      connectElements, connectElements, ← connect_above]
    rfl

theorem addEnds_above (base t : Graph) :
    (base.above t).addEnds = (t.addEnds.1.moved base.size, base.above t.addEnds.2) := by
  have hfirst := add_above base t .junction
  have hsecond := add_above base (t.add .junction).2 .junction
  simp only [NodeKind.moved] at hfirst hsecond
  simp only [addEnds, hfirst, hsecond]
  rfl

theorem addSequence_above (base t : Graph) (es : List Element) :
    (base.above t).addSequence (es.map (Element.moved base.size)) =
      ((t.addSequence es).1.moved base.size, base.above (t.addSequence es).2) := by
  have hchain :=
    chain_above base (.ofNode t.addEnds.1.socket :: es ++ [.ofNode t.addEnds.1.plug]) t.addEnds.2
  simp only [List.map_append, List.map_cons, List.map_nil] at hchain
  simp only [addSequence, addEnds_above]
  rw [← hchain]
  rfl

theorem addFork_above (base t : Graph) (es : List Element) :
    (base.above t).addFork (es.map (Element.moved base.size)) =
      ((t.addFork es).1.moved base.size, base.above (t.addFork es).2) := by
  have hlinks : ∀ (ends : Element) (t : Graph), (es.map (Element.moved base.size)).foldl (fun g b =>
        (g.connect (base.size + ends.socket) b.socket).connect b.plug
        (base.size + ends.plug)) (base.above t) = base.above (es.foldl (fun g b =>
          (g.connect ends.socket b.socket).connect b.plug ends.plug) t) := by
    intro ends
    induction es with
    | nil => exact fun t => rfl
    | cons e es ih =>
      intro t
      rw [List.map_cons, List.foldl_cons, List.foldl_cons, ← ih, ← connect_above, ← connect_above]
      rfl
  simp only [addFork, addEnds_above, ← hlinks]
  rfl

theorem addRepeated_above (base t : Graph) (m : Multiplicity) (e : Element) :
    (base.above t).addRepeated m (e.moved base.size) =
      ((t.addRepeated m e).1.moved base.size, base.above (t.addRepeated m e).2) := by
  simp only [addRepeated, addEnds_above]
  cases m <;> simp only [← connect_above] <;> rfl

theorem addGuard_above (base t : Graph) (holds : Context → Bool) :
    (base.above t).addGuard holds =
      ((t.addGuard holds).1.moved base.size, base.above (t.addGuard holds).2) := by
  have hfirst := add_above base t .junction
  have hsecond := add_above base (t.add .junction).2 (.gate holds (t.add .junction).1)
  simp only [NodeKind.moved] at hfirst hsecond
  simp only [addGuard, hfirst, hsecond]
  rfl

theorem addCall_above (base t : Graph) (rule : RuleId) (ident : Option String) :
    (base.above t).addCall rule ident =
      ((t.addCall rule ident).1.moved base.size, base.above (t.addCall rule ident).2) := by
  have hfirst := add_above base t (.ruleEnd rule ident)
  have hsecond := add_above base (t.add (.ruleEnd rule ident)).2
    (.ruleStart rule ident (t.add (.ruleEnd rule ident)).1)
  simp only [NodeKind.moved] at hfirst hsecond
  simp only [addCall, hfirst, hsecond]
  rfl

/-- The branches of a switch, moved. -/
def movedBranches (k : Nat) (branches : List (String × Element)) : List (String × Element) :=
  branches.map fun (key, e) => (key, e.moved k)

theorem table_moved (k : Nat) (branches : List (String × Element))
    (table : List (String × NodeId)) : (movedBranches k branches).foldl (fun table (key, b) =>
      (key, b.socket) :: table.filter (·.1 != key)) (table.map fun (key, n) => (key, k + n)) =
      (branches.foldl (fun table (key, b) => (key, b.socket) ::
        table.filter (·.1 != key)) table).map fun (key, n) => (key, k + n) := by
  induction branches generalizing table with
  | nil => rfl
  | cons branch branches ih =>
    obtain ⟨key, e⟩ := branch
    have hrest := ih ((key, e.socket) :: table.filter (·.1 != key))
    rw [List.map_cons] at hrest
    simp only [movedBranches, List.map_cons, List.foldl_cons, List.filter_map] at hrest ⊢
    exact hrest

theorem addSwitch_above (base t : Graph) (branches : List (String × Element)) :
    (base.above t).addSwitch (movedBranches base.size branches) =
      ((t.addSwitch branches).1.moved base.size, base.above (t.addSwitch branches).2) := by
  have hstop := add_above base t .junction
  have hlinks : ∀ (n : Nat) (t : Graph), (movedBranches base.size branches).foldl
      (fun g (_, b) => g.connect b.plug (base.size + n)) (base.above t) =
        base.above (branches.foldl (fun g (_, b) => g.connect b.plug n) t) := by
    intro n
    induction branches with
    | nil => exact fun t => rfl
    | cons branch branches ih =>
      intro t
      rw [movedBranches, List.map_cons, List.foldl_cons, List.foldl_cons, ← ih, ← connect_above]
      rfl
  have htable := table_moved base.size branches []
  have hsocket := add_above base
    (branches.foldl (fun g (_, b) => g.connect b.plug (t.add .junction).1) (t.add .junction).2)
    (.switch (branches.foldl
      (fun table (key, b) => (key, b.socket) :: table.filter (·.1 != key)) []) (t.add .junction).1)
  simp only [NodeKind.moved] at hstop hsocket
  simp only [List.map_nil] at htable
  simp only [addSwitch, hstop, hlinks, htable, hsocket]
  rfl

end Graph

/-- The parts of a body, moved. -/
def Parts.moved (k : Nat) (parts : Parts) : Parts :=
  ⟨k + parts.entry, k + parts.exit, parts.built.map (Element.moved k)⟩

theorem Parts.resolve_moved (k : Nat) (parts : Parts) :
    ∀ r : Ref, (parts.moved k).resolve r = (parts.resolve r).moved k
  | .entry | .exit => rfl
  | .part i => by
    rw [resolve, resolve, moved, Array.getElem?_map]
    cases parts.built[i]? <;> rfl
  | .span first last => by
    rw [resolve, resolve, resolve_moved k parts first, resolve_moved k parts last]
    rfl
  | .socket r | .plug r => by
    rw [resolve, resolve, resolve_moved k parts r]
    rfl

namespace Piece

open GrammarGraph.Graph

variable {parts : Parts}

mutual

theorem build_above (base : Graph) :
    ∀ (p : Piece) (t : Graph), p.build (parts.moved base.size) (base.above t) =
    ((p.build parts t).1.moved base.size, base.above (p.build parts t).2)
  | .ref r, _ => by rw [build, build, Parts.resolve_moved]
  | .junction, t => by
    have h := add_above base t .junction
    simp only [NodeKind.moved] at h
    simp only [build, h]
    rfl
  | .slot type ident hook, t => by
    have h := add_above base t (.slot type ident hook)
    simp only [NodeKind.moved] at h
    simp only [build, h]
    rfl
  | .call rule ident, t => addCall_above base t rule ident
  | .sequence ps, t => by
    simp only [build, buildAll_above base ps t]
    exact addSequence_above base _ _
  | .fork ps, t => by
    simp only [build, buildAll_above base ps t]
    exact addFork_above base _ _
  | .repeated m p, t => by
    simp only [build, build_above base p t]
    exact addRepeated_above base _ m _
  | .switch bs, t => by
    simp only [build, buildBranches_above base bs t]
    exact addSwitch_above base _ _
  | .guard holds, t => addGuard_above base t holds

theorem buildAll_above (base : Graph) : ∀ (ps : List Piece) (t : Graph),
    buildAll (parts.moved base.size) ps (base.above t) =
      ((buildAll parts ps t).1.map (Element.moved base.size), base.above (buildAll parts ps t).2)
  | [], _ => rfl
  | p :: ps, t => by
    simp only [buildAll, build_above base p t, buildAll_above base ps]
    rfl

theorem buildBranches_above (base : Graph) : ∀ (bs : List (String × Piece)) (t : Graph),
    buildBranches (parts.moved base.size) bs (base.above t) =
      (movedBranches base.size (buildBranches parts bs t).1,
        base.above (buildBranches parts bs t).2)
  | [], _ => rfl
  | b :: bs, t => by
    simp only [buildBranches, buildBranch_above base b t, buildBranches_above base bs]
    rfl

theorem buildBranch_above (base : Graph) : ∀ (b : String × Piece) (t : Graph),
    buildBranch (parts.moved base.size) b (base.above t) = (((buildBranch parts b t).1.1,
        (buildBranch parts b t).1.2.moved base.size), base.above (buildBranch parts b t).2)
  | (_, p), t => by simp only [buildBranch, build_above base p t]

end

end Piece

namespace Body

theorem wire_above (base : Graph) : ∀ (body : Body) (parts : Parts) (t : Graph),
    body.wire (parts.moved base.size) (base.above t) = base.above (body.wire parts t)
  | [], _, _ => rfl
  | .part p :: rest, parts, t => by
    have h := wire_above base rest { parts with built := parts.built.push (p.build parts t).1 }
      (p.build parts t).2
    simp only [Parts.moved, Array.map_push] at h
    simp only [wire, Piece.build_above base p t]
    exact h
  | .chain refs :: rest, parts, t => by
    have hrefs : refs.map (parts.moved base.size).resolve =
        (refs.map parts.resolve).map (Element.moved base.size) := by
      rw [List.map_map]
      exact List.map_congr_left fun r _ => Parts.resolve_moved base.size parts r
    rw [wire, wire, hrefs, Graph.chain_above]
    exact wire_above base rest parts _

/-- The nodes of a body by themselves: the entry, the exit, and then its parts.  The
exit leads nowhere yet. -/
def template (body : Body) : Graph := body.wire ⟨0, 1, #[]⟩ (Graph.addEnds {}).2

end Body

namespace Graph

variable {a graph t : Graph} {base i n : Nat} {stop : NodeId}

theorem addBody_eq (a : Graph) (body : Body) (stop : NodeId) :
    (a.addBody body stop).2 = (a.above body.template).connect (a.size + 1) stop := by
  have hempty : a.above {} = a := by simp [above]
  have hends : a.addEnds.2 = a.above (addEnds {}).2 := by
    have hboth := addEnds_above a {}
    rw [hempty] at hboth
    rw [hboth]
  rw [Body.template, ← Body.wire_above, ← hends]
  simp only [addBody, addEnds, fst_add, size_add, Parts.moved, Nat.add_zero, List.map_toArray,
    List.map_nil]

theorem size_addBody (a : Graph) (body : Body) (stop : NodeId) :
    (a.addBody body stop).2.size = a.size + body.template.size := by
  rw [addBody_eq, size_connect, size_above]

theorem nodes_above (base t : Graph) (i : Nat) :
    (base.above t).nodes[base.size + i]? = t.nodes[i]?.map (Node.moved base.size) := by
  have happend :
      (base.above t).nodes[base.nodes.size + i]? = (t.nodes.map (Node.moved base.size))[i]? :=
    (Array.getElem?_append_right (Nat.le_add_right _ _)).trans (by rw [Nat.add_sub_cancel_left])
  rw [size, happend, Array.getElem?_map]
  rfl

/-- From `base` on the arena has the nodes of a template, and behind the exit it leads on to
`stop`. -/
structure Holds (graph : Graph) (base : Nat) (t : Graph) (stop : NodeId) : Prop where
  size_le : base + t.size ≤ graph.size
  kind : ∀ i node, t.nodes[i]? = some node → graph.kind (base + i) = node.kind.moved base
  wired : ∀ i node, t.nodes[i]? = some node →
    graph.wired (base + i) = node.successors.map (base + ·) ++ if i = 1 then [stop] else []

theorem Holds.of_le {b : Graph} {base : Nat} (h : graph.Holds base t stop) (hle : graph ≤ b) :
    b.Holds base t stop := by
  have hlt : ∀ i node, t.nodes[i]? = some node → base + i < graph.size := by
    intro i node hi
    obtain ⟨hi', -⟩ := Array.getElem?_eq_some_iff.mp hi
    exact lt_of_lt_of_le (Nat.add_lt_add_left hi' base) h.size_le
  constructor
  · exact le_trans h.size_le hle.1
  · intro i node hi
    rw [kind_of_le hle (hlt i node hi), h.kind i node hi]
  · intro i node hi
    rw [wired_of_le hle (hlt i node hi), h.wired i node hi]

theorem holds_addBody (hstop : stop < a.size) (body : Body) :
    (a.addBody body stop).2.Holds a.size body.template stop := by
  have hwired : ∀ i node, body.template.nodes[i]? = some node →
      (a.above body.template).wired (a.size + i) = node.successors.map (a.size + ·) := by
    intro i node hi
    simp only [Graph.wired, nodes_above, hi, Option.map_some]
    rfl
  rw [addBody_eq]
  constructor
  · rw [size_connect, size_above]
  · intro i node hi
    rw [kind_connect]
    simp only [Graph.kind, nodes_above, hi, Option.map_some]
    rfl
  · intro i node hi
    by_cases hexit : i = 1
    · subst hexit
      have hlt : a.size + 1 < (a.above body.template).size := by
        rw [size_above]
        exact Nat.add_lt_add_left (Array.getElem?_eq_some_iff.mp hi).1 _
      rw [wired_connect_self hlt, hwired 1 node hi, if_pos rfl]
      rw [hwired 1 node hi]
      intro hmem
      obtain ⟨n, -, rfl⟩ := List.mem_map.mp hmem
      exact absurd hstop (not_lt.mpr (Nat.le_add_right _ _))
    · rw [wired_connect_of_ne (fun h => hexit (Nat.add_left_cancel h)), hwired i node hi,
        if_neg hexit, List.append_nil]

theorem Holds.kind_eq (h : graph.Holds base t stop) (hi : i < t.size) :
    graph.kind (base + i) = (t.kind i).moved base := by
  have hnode : t.nodes[i]? = some t.nodes[i] := Array.getElem?_eq_getElem hi
  rw [h.kind i _ hnode, Graph.kind, hnode]

/-- A node of an instance leads to nodes of the instance, and the exit to the node behind it. -/
theorem Holds.mem_targets (h : graph.Holds base t stop) (hi : i < t.size)
    (hn : n ∈ graph.targets (base + i)) : (∃ j ∈ t.targets i, n = base + j) ∨ i = 1 ∧ n = stop := by
  have hnode : t.nodes[i]? = some t.nodes[i] := Array.getElem?_eq_getElem hi
  have hwired : t.wired i = t.nodes[i].successors := by rw [Graph.wired, hnode]
  rw [targets, h.kind_eq hi, h.wired i _ hnode, ← hwired] at hn
  refine (NodeKind.mem_targets_moved hn).imp_right fun hn => ?_
  split at hn
  · next hexit => exact ⟨hexit, List.mem_singleton.mp hn⟩
  · exact absurd hn List.not_mem_nil

/-- The link to the node behind the exit comes last, so all others lead to nodes of the instance. -/
theorem Holds.le_of_mem_dropLast (h : graph.Holds base t stop) (hi : i < t.size)
    (hn : n ∈ (graph.wired (base + i)).dropLast) : base ≤ n := by
  have hnode : t.nodes[i]? = some t.nodes[i] := Array.getElem?_eq_getElem hi
  have hmem : n ∈ t.nodes[i].successors.map (base + ·) := by
    rw [h.wired i _ hnode] at hn
    split at hn
    · rwa [List.dropLast_concat] at hn
    · rw [List.append_nil] at hn
      exact List.dropLast_subset _ hn
  obtain ⟨j, -, rfl⟩ := List.mem_map.mp hmem
  exact Nat.le_add_right base j

/-- A body of regular nodes keeps an arena regular. -/
theorem Regular.addBody_of_template {body : Body} (ha : a.Regular) (h : body.template.Regular)
    (stop : NodeId) : (a.addBody body stop).2.Regular := by
  rw [addBody_eq]
  refine Regular.of_kind (b := a.above body.template)
    (fun id => ?_) (fun id => kind_connect _ _ _ id)
  by_cases hid : id < a.size
  · have hnode : (a.above body.template).nodes[id]? = a.nodes[id]? := Array.getElem?_append_left hid
    simp only [Graph.kind, hnode]
    exact ha id
  · obtain ⟨i, rfl⟩ := Nat.exists_eq_add_of_le (not_lt.mp hid)
    have hi := h i
    simp only [Graph.kind, nodes_above] at hi ⊢
    cases hn : body.template.nodes[i]? with
    | none => trivial
    | some node =>
      simp only [hn, Option.map_some, Node.moved] at hi ⊢
      cases hk : node.kind <;> rw [hk] at hi <;> exact hi

end Graph

end GrammarGraph
