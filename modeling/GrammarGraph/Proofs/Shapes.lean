import GrammarGraph.Proofs.Wiring
import Mathlib.Data.List.Chain

/-!
# How a piece lies in the arena

The pieces that definitions are made of are slots, references, sequences, alternatives and
repetitions (`Piece.Regular`).  `Graph.Lies` says which nodes such a piece has and how they are
linked, once the body around it is wired.  All that is added later only leads on from the plug of
the piece, so this can be told piece by piece as they are built (`Piece.lies_build`), and for a
whole body (`Graph.bodyOf_addBody`).
-/

namespace GrammarGraph

/-- Neither a gate nor a switch nor a slot with a hook. -/
def NodeKind.Regular : NodeKind → Prop
  | gate .. | switch .. => False
  | slot _ _ hook => hook = none
  | _ => True

namespace Piece

mutual

/-- Made of slots without hooks, references to rules, sequences, alternatives and repetitions. -/
def Regular : Piece → Prop
  | slot _ _ hook => hook = none
  | call .. => True
  | sequence ps | fork ps => AllRegular ps
  | repeated _ p => Regular p
  | ref _ | junction | switch _ | guard _ => False

def AllRegular : List Piece → Prop
  | [] => True
  | p :: ps => Regular p ∧ AllRegular ps

end

end Piece

namespace Graph

variable {a b graph : Graph} {lo : Nat} {id s t : NodeId} {e inner : Element} {es : List Element}

/-- The two junctions around the pieces of another one. -/
structure Joins (graph : Graph) (lo : Nat) (e : Element) : Prop where
  le_socket : lo ≤ e.socket
  le_plug : lo ≤ e.plug
  socket : graph.kind e.socket = .junction
  plug : graph.kind e.plug = .junction

/-- The links of a repeated piece and of the junctions around it. -/
def Repeats (graph : Graph) (e inner : Element) : Multiplicity → Prop
  | .zeroOrOne => graph.wired e.socket = [inner.socket, e.plug] ∧ graph.wired inner.plug = [e.plug]
  | .zeroOrMore =>
    graph.wired e.socket = [inner.socket, e.plug] ∧ graph.wired inner.plug = [e.socket]
  | .oneOrMore =>
    graph.wired e.socket = [inner.socket] ∧ graph.wired inner.plug = [e.plug, inner.socket]

mutual

/-- The piece has these nodes, none below `lo`, and they are linked among each other.  What the plug
is linked to is up to what the piece is part of. -/
def Lies (graph : Graph) (lo : Nat) : Piece → Element → Prop
  | .slot type ident hook, e =>
    lo ≤ e.socket ∧ e.plug = e.socket ∧ graph.kind e.socket = .slot type ident hook
  | .call rule ident, e =>
    lo ≤ e.socket ∧ lo ≤ e.plug ∧ graph.kind e.socket = .ruleStart rule ident e.plug ∧
      graph.kind e.plug = .ruleEnd rule ident
  | .sequence ps, e => Joins graph lo e ∧ ∃ first, graph.wired e.socket = [first] ∧
      LieInTurn graph lo ps first e.plug
  | .fork ps, e => Joins graph lo e ∧ LieAside graph lo ps (graph.wired e.socket) e.plug
  | .repeated m p, e => Joins graph lo e ∧ ∃ inner, Lies graph lo p inner ∧ Repeats graph e inner m
  | _, _ => False

/-- One piece leads to the next; the first is entered at `first`, and the last leads to `stop`. -/
def LieInTurn (graph : Graph) (lo : Nat) : List Piece → NodeId → NodeId → Prop
  | [], first, stop => first = stop
  | p :: ps, first, stop =>
    ∃ e next, e.socket = first ∧ Lies graph lo p e ∧ graph.wired e.plug = [next] ∧
      LieInTurn graph lo ps next stop

/-- The pieces are entered at these sockets, and all lead to `stop`. -/
def LieAside (graph : Graph) (lo : Nat) : List Piece → List NodeId → NodeId → Prop
  | [], sockets, _ => sockets = []
  | p :: ps, sockets, stop =>
    ∃ e rest, sockets = e.socket :: rest ∧ Lies graph lo p e ∧ graph.wired e.plug = [stop] ∧
      LieAside graph lo ps rest stop

end

/-! ## Links one by one -/

theorem wired_connect_of_ne (h : id ≠ s) (t : NodeId) :
    (graph.connect s t).wired id = graph.wired id := by
  simp only [wired, nodes_connect_of_ne h]

theorem wired_connect_self (hs : s < graph.size) (ht : t ∉ graph.wired s) :
    (graph.connect s t).wired s = graph.wired s ++ [t] := by
  have hnode : graph.nodes[s]? = some graph.nodes[s] := Array.getElem?_eq_getElem hs
  simp only [wired, hnode] at ht ⊢
  simp only [connect, Array.getElem?_modify, if_pos, hnode, Option.map_some]
  rw [if_neg (by simpa using ht)]

theorem wired_connect_of_nil (hs : s < graph.size) (h : graph.wired s = []) :
    (graph.connect s t).wired s = [t] := by
  rw [wired_connect_self hs (by rw [h]; exact List.not_mem_nil), h, List.nil_append]

/-- Links were drawn, all of them from the given nodes. -/
structure Links (b c : Graph) (sources : List NodeId) : Prop where
  size : c.size = b.size
  kind : ∀ id, c.kind id = b.kind id
  nodes : ∀ id, id ∉ sources → c.nodes[id]? = b.nodes[id]?

namespace Links

variable {c d : Graph} {sources sources' : List NodeId}

theorem refl (b : Graph) (sources : List NodeId) : Links b b sources :=
  ⟨rfl, fun _ => rfl, fun _ _ => rfl⟩

theorem trans (h : Links b c sources) (h' : Links c d sources) : Links b d sources :=
  ⟨h'.size.trans h.size, fun id => (h'.kind id).trans (h.kind id),
    fun id hid => (h'.nodes id hid).trans (h.nodes id hid)⟩

theorem mono (h : Links b c sources) (hsub : sources ⊆ sources') : Links b c sources' :=
  ⟨h.size, h.kind, fun id hid => h.nodes id fun hmem => hid (hsub hmem)⟩

theorem connect (b : Graph) {s : NodeId} (hs : s ∈ sources) (t : NodeId) :
    Links b (b.connect s t) sources where
  size := size_connect b s t
  kind := kind_connect b s t
  nodes _ hid := nodes_connect_of_ne fun heq => hid (heq ▸ hs)

theorem wired (h : Links b c sources) (hid : id ∉ sources) : c.wired id = b.wired id := by
  simp only [Graph.wired, h.nodes id hid]

/-- Linking elements in a chain adds links to the plugs of all but the last. -/
theorem chain : ∀ (es : List Element) {b : Graph}, Links b (b.chain es) (es.dropLast.map (·.plug))
  | [], b | [_], b => refl b _
  | e :: e' :: rest, b => by
    rw [Graph.chain, List.dropLast_cons_cons, List.map_cons]
    exact (connect b List.mem_cons_self e'.socket).trans
      ((chain (e' :: rest)).mono (List.subset_cons_self _ _))

end Links

/-- If nothing led on from the plugs before, each element is linked to the next. -/
theorem wired_chain : ∀ (es : List Element) {graph : Graph}, (es.dropLast.map (·.plug)).Nodup →
    (∀ e ∈ es.dropLast, e.plug < graph.size ∧ graph.wired e.plug = []) →
    es.IsChain fun a b => (graph.chain es).wired a.plug = [b.socket]
  | [], _, _, _ => .nil
  | [_], _, _, _ => .singleton _
  | a :: b :: rest, graph, hnodup, hes => by
    rw [List.dropLast_cons_cons, List.map_cons, List.nodup_cons] at hnodup
    rw [List.dropLast_cons_cons] at hes
    obtain ⟨⟨ha, hnil⟩, hrest⟩ := List.forall_mem_cons.mp hes
    refine .cons_cons ?_ (wired_chain (b :: rest) hnodup.2 fun e he => ?_)
    · rw [chain, (Links.chain (b :: rest)).wired hnodup.1, connectElements,
        wired_connect_of_nil ha hnil]
    · have hne : e.plug ≠ a.plug := fun heq => hnodup.1 (heq ▸ List.mem_map_of_mem he)
      rw [connectElements, size_connect, wired_connect_of_ne hne]
      exact hrest e he

/-! ## Building -/

/-- From node `lo` on the arena is as it was when `b` was built, but for what was
linked to the open plugs. -/
structure Agrees (b graph : Graph) (lo : Nat) (plugs : List NodeId) : Prop where
  kind : ∀ id, lo ≤ id → id < b.size → graph.kind id = b.kind id
  wired : ∀ id, lo ≤ id → id < b.size → id ∉ plugs → graph.wired id = b.wired id

/-- Building gave nodes for a part, and its plug is linked to nothing yet. -/
structure Adds (a b : Graph) (e : Element) : Prop where
  le : a ≤ b
  le_socket : a.size ≤ e.socket
  socket_lt : e.socket < b.size
  le_plug : a.size ≤ e.plug
  plug_lt : e.plug < b.size
  plug : b.wired e.plug = []

/-- Several parts, each behind the ones before it. -/
structure AddsAll (a b : Graph) (es : List Element) : Prop where
  le : a ≤ b
  mem : ∀ e ∈ es, a.size ≤ e.socket ∧ e.socket < b.size ∧ a.size ≤ e.plug ∧ e.plug < b.size ∧
    b.wired e.plug = []
  sockets : (es.map (·.socket)).Nodup
  plugs : (es.map (·.plug)).Nodup

theorem addsAll_nil (a : Graph) : AddsAll a a [] := ⟨le_refl a, nofun, .nil, .nil⟩

theorem Adds.cons {m : Graph} (h : Adds a m e) (hes : AddsAll m b es) : AddsAll a b (e :: es) where
  le := le_trans h.le hes.le
  mem e' he' := by
    rcases List.mem_cons.mp he' with rfl | he'
    · exact ⟨h.le_socket, lt_of_lt_of_le h.socket_lt hes.le.1, h.le_plug,
        lt_of_lt_of_le h.plug_lt hes.le.1, (wired_of_le hes.le h.plug_lt).trans h.plug⟩
    · obtain ⟨hsocket, hslt, hplug, hplt, hwired⟩ := hes.mem e' he'
      exact ⟨le_trans h.le.1 hsocket, hslt, le_trans h.le.1 hplug, hplt, hwired⟩
  sockets := by
    refine List.nodup_cons.mpr ⟨fun hmem => ?_, hes.sockets⟩
    obtain ⟨e', he', heq⟩ := List.mem_map.mp hmem
    have hle := (hes.mem e' he').1
    rw [heq] at hle
    exact absurd h.socket_lt (not_lt.mpr hle)
  plugs := by
    refine List.nodup_cons.mpr ⟨fun hmem => ?_, hes.plugs⟩
    obtain ⟨e', he', heq⟩ := List.mem_map.mp hmem
    have hle := (hes.mem e' he').2.2.1
    rw [heq] at hle
    exact absurd h.plug_lt (not_lt.mpr hle)

theorem adds_add (a : Graph) (k : NodeKind) : Adds a (a.add k).2 (.ofNode a.size) where
  le := le_add (le_refl a) k
  le_socket := le_refl _
  socket_lt := by rw [size_add]; exact Nat.lt_succ_self _
  le_plug := le_refl _
  plug_lt := by rw [size_add]; exact Nat.lt_succ_self _
  plug := by rw [wired_add]; exact wired_of_size_le (le_refl _)

/-! ### Ends -/

theorem fst_addEnds (graph : Graph) : graph.addEnds.1 = ⟨graph.size, graph.size + 1⟩ := by
  simp only [addEnds, fst_add, size_add]

theorem size_addEnds (graph : Graph) : graph.addEnds.2.size = graph.size + 2 := by
  simp only [addEnds, size_add]

@[simp] theorem wired_addEnds (graph : Graph) (id : NodeId) :
    graph.addEnds.2.wired id = graph.wired id := by
  simp only [addEnds, wired_add]

theorem kind_addEnds (graph : Graph) (id : NodeId) :
    graph.addEnds.2.kind id = if id < graph.size then graph.kind id else .junction := by
  simp only [addEnds, kind_add, size_add]
  by_cases hid : id < graph.size
  · rw [if_pos hid, if_neg (Nat.ne_of_lt (Nat.lt_succ_of_lt hid)), if_neg (Nat.ne_of_lt hid)]
  · rw [if_neg hid, kind_of_size_le (not_lt.mp hid), ite_self, ite_self]

theorem adds_addEnds (hle : a ≤ b) : Adds a b.addEnds.2 b.addEnds.1 where
  le := le_add (le_add hle _) _
  le_socket := by rw [fst_addEnds]; exact hle.1
  socket_lt := by rw [fst_addEnds, size_addEnds]; exact Nat.lt_add_of_pos_right Nat.two_pos
  le_plug := by rw [fst_addEnds]; exact le_trans hle.1 (Nat.le_succ _)
  plug_lt := by rw [fst_addEnds, size_addEnds]; exact Nat.lt_succ_self _
  plug := by rw [fst_addEnds, wired_addEnds]; exact wired_of_size_le (Nat.le_succ _)

/-- Links that lead from new nodes, and none from the plug. -/
theorem Adds.of_links {c : Graph} {sources : List NodeId} (h : Adds a b e) (hc : Links b c sources)
    (hnew : ∀ id ∈ sources, a.size ≤ id) (hplug : e.plug ∉ sources) : Adds a c e where
  le := by
    refine ⟨by rw [hc.size]; exact h.le.1, fun id hid => ?_⟩
    rw [hc.nodes id fun hmem => absurd hid (not_lt.mpr (hnew id hmem)), h.le.2 id hid]
  le_socket := h.le_socket
  socket_lt := by rw [hc.size]; exact h.socket_lt
  le_plug := h.le_plug
  plug_lt := by rw [hc.size]; exact h.plug_lt
  plug := (hc.wired hplug).trans h.plug

/-- What was built before the two ends, and was linked among each other and with these. -/
structure Encloses (a b c : Graph) (es : List Element) : Prop where
  adds : AddsAll a b es
  links : Links b.addEnds.2 c (b.addEnds.1.socket :: es.map (·.plug))

namespace Encloses

variable {c : Graph}

theorem plug_not_mem (h : Encloses a b c es) :
    b.addEnds.1.plug ∉ b.addEnds.1.socket :: es.map (·.plug) := by
  rw [fst_addEnds, List.mem_cons, not_or]
  refine ⟨Nat.succ_ne_self _, fun hmem => ?_⟩
  obtain ⟨e, he, heq⟩ := List.mem_map.mp hmem
  exact absurd (h.adds.mem e he).2.2.2.1 (by rw [heq]; exact not_lt.mpr (Nat.le_succ _))

theorem adds_ends (h : Encloses a b c es) : Adds a c b.addEnds.1 := by
  refine (adds_addEnds h.adds.le).of_links h.links
    (List.forall_mem_cons.mpr ⟨?_, ?_⟩) h.plug_not_mem
  · exact (adds_addEnds h.adds.le).le_socket
  · intro id hid
    obtain ⟨e, he, rfl⟩ := List.mem_map.mp hid
    exact (h.adds.mem e he).2.2.1

theorem kind_of_lt (h : Encloses a b c es) (hid : id < b.size) : c.kind id = b.kind id := by
  rw [h.links.kind, kind_addEnds, if_pos hid]

/-- The enclosed parts are as they were built. -/
theorem agrees (h : Encloses a b c es) (hc : Agrees c graph a.size [b.addEnds.1.plug]) :
    Agrees b graph a.size (es.map (·.plug)) where
  kind id hlo hid := by
    have hlt : id < c.size := by rw [h.links.size, size_addEnds]; exact Nat.lt_add_right 2 hid
    rw [hc.kind id hlo hlt, h.kind_of_lt hid]
  wired id hlo hid hplugs := by
    have hlt : id < c.size := by rw [h.links.size, size_addEnds]; exact Nat.lt_add_right 2 hid
    rw [hc.wired id hlo hlt, h.links.wired, wired_addEnds]
    · rw [fst_addEnds, List.mem_cons, not_or]
      exact ⟨Nat.ne_of_lt hid, hplugs⟩
    · rw [fst_addEnds, List.mem_singleton]
      exact Nat.ne_of_lt (Nat.lt_succ_of_lt hid)

theorem joins (h : Encloses a b c es) (hlo : lo ≤ a.size)
    (hc : Agrees c graph a.size [b.addEnds.1.plug]) : Joins graph lo b.addEnds.1 where
  le_socket := le_trans hlo h.adds_ends.le_socket
  le_plug := le_trans hlo h.adds_ends.le_plug
  socket := by
    rw [hc.kind _ h.adds_ends.le_socket h.adds_ends.socket_lt, h.links.kind, kind_addEnds,
      fst_addEnds,
      if_neg (lt_irrefl _)]
  plug := by
    rw [hc.kind _ h.adds_ends.le_plug h.adds_ends.plug_lt, h.links.kind, kind_addEnds, fst_addEnds,
      if_neg (not_lt.mpr (Nat.le_succ _))]

/-- The links of the enclosed parts and of the end before them stay as they are. -/
theorem wired_eq (h : Encloses a b c es) (hc : Agrees c graph a.size [b.addEnds.1.plug])
    (hid : id ∈ b.addEnds.1.socket :: es.map (·.plug)) : graph.wired id = c.wired id := by
  have hne : id ≠ b.addEnds.1.plug := fun heq => h.plug_not_mem (heq ▸ hid)
  have hrange : a.size ≤ id ∧ id < c.size := by
    rcases List.mem_cons.mp hid with rfl | hid
    · exact ⟨h.adds_ends.le_socket, h.adds_ends.socket_lt⟩
    · obtain ⟨e, he, rfl⟩ := List.mem_map.mp hid
      obtain ⟨-, -, hle, hlt, -⟩ := h.adds.mem e he
      exact ⟨hle, by rw [h.links.size, size_addEnds]; exact Nat.lt_add_right 2 hlt⟩
  exact hc.wired id hrange.1 hrange.2 (by rwa [List.mem_singleton])

/-- Nothing leads on from the enclosed parts and the end before them until they are linked. -/
theorem fresh (h : AddsAll a b es) : ∀ id ∈ b.addEnds.1.socket :: es.map (·.plug),
    id < b.addEnds.2.size ∧ b.addEnds.2.wired id = [] := by
  intro id hid
  rw [size_addEnds, wired_addEnds]
  rcases List.mem_cons.mp hid with rfl | hid
  · rw [fst_addEnds]
    exact ⟨Nat.lt_add_of_pos_right Nat.two_pos, wired_of_size_le (le_refl _)⟩
  · obtain ⟨e, he, rfl⟩ := List.mem_map.mp hid
    obtain ⟨-, -, -, hlt, hwired⟩ := h.mem e he
    exact ⟨Nat.lt_add_right 2 hlt, hwired⟩

theorem socket_not_mem (h : AddsAll a b es) : b.addEnds.1.socket ∉ es.map (·.plug) := by
  intro hmem
  obtain ⟨e, he, heq⟩ := List.mem_map.mp hmem
  rw [fst_addEnds] at heq
  exact absurd (h.mem e he).2.2.2.1 (by rw [heq]; exact lt_irrefl _)

end Encloses

/-! ### Sequences -/

theorem encloses_addSequence (h : AddsAll a b es) : Encloses a b (b.addSequence es).2 es where
  adds := h
  links := by
    have hchain := Links.chain (.ofNode b.addEnds.1.socket :: es ++ [.ofNode b.addEnds.1.plug])
      (b := b.addEnds.2)
    rwa [List.dropLast_concat] at hchain

theorem chain_addSequence (h : AddsAll a b es) :
    (Element.ofNode b.addEnds.1.socket :: es ++ [Element.ofNode b.addEnds.1.plug]).IsChain
      fun x y : Element => (b.addSequence es).2.wired x.plug = [y.socket] := by
  refine wired_chain _ ?_ ?_
  · rw [List.dropLast_concat]
    exact List.nodup_cons.mpr ⟨Encloses.socket_not_mem h, h.plugs⟩
  · rw [List.dropLast_concat]
    intro e he
    refine Encloses.fresh h e.plug ?_
    rcases List.mem_cons.mp he with rfl | he
    · exact List.mem_cons_self
    · exact List.mem_cons_of_mem _ (List.mem_map_of_mem he)

/-! ### Alternatives -/

/-- One alternative after the other is linked to both ends. -/
theorem links_foldl (start stop : NodeId) : ∀ (es : List Element) {b : Graph},
    Links b (es.foldl (fun g e => (g.connect start e.socket).connect e.plug stop) b)
    (start :: es.map (·.plug))
  | [], b => .refl b _
  | e :: es, b => by
    have hfirst : Links b ((b.connect start e.socket).connect e.plug stop)
        (start :: e.plug :: es.map (·.plug)) :=
      (Links.connect b List.mem_cons_self _).trans
        (Links.connect _ (List.mem_cons_of_mem _ List.mem_cons_self) _)
    exact hfirst.trans
      ((links_foldl start stop es).mono (List.cons_subset_cons _ (List.subset_cons_self _ _)))

theorem wired_foldl {start : NodeId} (stop : NodeId) : ∀ (es : List Element)
    {b : Graph}, start < b.size → start ∉ es.map (·.plug) → (es.map (·.plug)).Nodup →
    (b.wired start ++ es.map (·.socket)).Nodup → (∀ e ∈ es, e.plug < b.size ∧ b.wired e.plug = []) →
    (es.foldl (fun g e => (g.connect start e.socket).connect e.plug stop) b).wired start =
      b.wired start ++ es.map (·.socket) ∧
    ∀ e ∈ es,
    (es.foldl (fun g e => (g.connect start e.socket).connect e.plug stop) b).wired e.plug = [stop]
  | [], b, _, _, _, _, _ => ⟨(List.append_nil _).symm, nofun⟩
  | e :: es, b, hstart, hnot, hplugs, hsockets, hes => by
    rw [List.map_cons, List.mem_cons, not_or] at hnot
    rw [List.map_cons, List.nodup_cons] at hplugs
    obtain ⟨⟨hlt, hnil⟩, hes⟩ := List.forall_mem_cons.mp hes
    have hsocket : (b.connect start e.socket).wired start = b.wired start ++ [e.socket] :=
      wired_connect_self hstart fun hmem =>
        absurd rfl ((List.nodup_append.mp hsockets).2.2 _ hmem
          _ (by rw [List.map_cons]; exact List.mem_cons_self))
    have hplug : ((b.connect start e.socket).connect e.plug stop).wired e.plug = [stop] := by
      rw [wired_connect_self (by rw [size_connect]; exact hlt),
        wired_connect_of_ne (Ne.symm hnot.1), hnil, List.nil_append]
      rw [wired_connect_of_ne (Ne.symm hnot.1), hnil]
      exact List.not_mem_nil
    have hstart' : ((b.connect start e.socket).connect e.plug stop).wired start =
        b.wired start ++ [e.socket] := by
      rw [wired_connect_of_ne hnot.1, hsocket]
    obtain ⟨hrest, hall⟩ := wired_foldl stop es (b := (b.connect start e.socket).connect e.plug
      stop) (by rwa [size_connect, size_connect]) hnot.2 hplugs.2
      (by rw [hstart']; simpa using hsockets) fun e' he' => by
        have hne : e'.plug ≠ e.plug := fun heq => hplugs.1 (heq ▸ List.mem_map_of_mem he')
        have hne' : e'.plug ≠ start := fun heq => hnot.2 (heq ▸ List.mem_map_of_mem he')
        rw [size_connect, size_connect, wired_connect_of_ne hne, wired_connect_of_ne hne']
        exact hes e' he'
    refine ⟨?_, fun e' he' => ?_⟩
    · rw [List.foldl_cons, hrest, hstart', List.map_cons, List.append_assoc, List.singleton_append]
    · rcases List.mem_cons.mp he' with rfl | he'
      · rw [List.foldl_cons, (links_foldl start stop es).wired, hplug]
        exact List.not_mem_cons_of_ne_of_not_mem (Ne.symm hnot.1) hplugs.1
      · exact hall e' he'

theorem encloses_addFork (h : AddsAll a b es) : Encloses a b (b.addFork es).2 es :=
  ⟨h, links_foldl _ _ es⟩

theorem wired_addFork (h : AddsAll a b es) :
    (b.addFork es).2.wired b.addEnds.1.socket = es.map (·.socket) ∧
      ∀ e ∈ es, (b.addFork es).2.wired e.plug = [b.addEnds.1.plug] := by
  obtain ⟨hlt, hnil⟩ := Encloses.fresh h _ List.mem_cons_self
  have key := wired_foldl b.addEnds.1.plug es hlt (Encloses.socket_not_mem h) h.plugs
    (by rw [hnil]; exact h.sockets) fun e he =>
      Encloses.fresh h _ (List.mem_cons_of_mem _ (List.mem_map_of_mem he))
  rwa [hnil, List.nil_append] at key

/-! ### Repetitions -/

theorem encloses_addRepeated (m : Multiplicity) (h : AddsAll a b [e]) :
    Encloses a b (b.addRepeated m e).2 [e] where
  adds := h
  links := by
    have hstart : b.addEnds.1.socket ∈ [b.addEnds.1.socket, e.plug] := List.mem_cons_self
    have hplug : e.plug ∈ [b.addEnds.1.socket, e.plug] := List.mem_cons_of_mem _ List.mem_cons_self
    cases m with
    | zeroOrOne | zeroOrMore =>
      exact ((Links.connect _ hstart _).trans (.connect _ hplug _)).trans (.connect _ hstart _)
    | oneOrMore =>
      exact ((Links.connect _ hstart _).trans (.connect _ hplug _)).trans (.connect _ hplug _)

theorem repeats_addRepeated (m : Multiplicity) (h : AddsAll a b [e]) :
    Repeats (b.addRepeated m e).2 b.addEnds.1 e m := by
  obtain ⟨hslt, hsnil⟩ := Encloses.fresh h _ List.mem_cons_self
  obtain ⟨hplt, hpnil⟩ := Encloses.fresh h e.plug (List.mem_cons_of_mem _ List.mem_cons_self)
  obtain ⟨-, hlt, -, hpltb, -⟩ := h.mem e List.mem_cons_self
  have hne : e.plug ≠ b.addEnds.1.socket := by
    rw [fst_addEnds]
    exact Nat.ne_of_lt hpltb
  have hstop : b.addEnds.1.plug ∉ [e.socket] := by
    rw [fst_addEnds, List.mem_singleton]
    exact Nat.ne_of_gt (Nat.lt_succ_of_lt hlt)
  -- The link into the piece comes first, and does not concern the plug.
  have hentry :
      (b.addEnds.2.connect b.addEnds.1.socket e.socket).wired b.addEnds.1.socket = [e.socket] :=
    wired_connect_of_nil hslt hsnil
  have hplug : (b.addEnds.2.connect b.addEnds.1.socket e.socket).wired e.plug = [] := by
    rw [wired_connect_of_ne hne, hpnil]
  have hsize := size_connect b.addEnds.2 b.addEnds.1.socket e.socket
  rw [← hsize] at hslt hplt
  cases m with
  | zeroOrOne | zeroOrMore =>
    refine ⟨?_, ?_⟩
    · rw [addRepeated, wired_connect_self (by rwa [size_connect]),
        wired_connect_of_ne (Ne.symm hne), hentry]
      · rfl
      · rwa [wired_connect_of_ne (Ne.symm hne), hentry]
    · rw [addRepeated, wired_connect_of_ne hne, wired_connect_of_nil hplt hplug]
  | oneOrMore =>
    refine ⟨?_, ?_⟩
    · rw [addRepeated, wired_connect_of_ne (Ne.symm hne), wired_connect_of_ne (Ne.symm hne), hentry]
    · rw [addRepeated, wired_connect_self (by rwa [size_connect]), wired_connect_of_nil hplt hplug]
      · rfl
      · rw [wired_connect_of_nil hplt hplug]
        intro hmem
        exact hstop (List.mem_singleton.mp hmem ▸ List.mem_singleton_self _)

/-! ### References -/

theorem adds_addCall (a : Graph) (rule : RuleId) (ident : Option String) :
    Adds a (a.addCall rule ident).2 (a.addCall rule ident).1 where
  le := le_add (le_add (le_refl a) _) _
  le_socket := by simp only [addCall, fst_add, size_add]; exact Nat.le_succ _
  socket_lt := by simp only [addCall, fst_add, size_add]; exact Nat.lt_succ_self _
  le_plug := le_refl _
  plug_lt := by simp only [addCall, fst_add, size_add]; exact Nat.lt_succ_of_lt (Nat.lt_succ_self _)
  plug := by simp only [addCall, fst_add, wired_add]; exact wired_of_size_le (le_refl _)

/-! ## From parts to pieces -/

/-- The first of several parts is as it was built. -/
theorem Agrees.first {m : Graph} (hag : Agrees b graph a.size (e.plug :: es.map (·.plug)))
    (hes : AddsAll m b es) : Agrees m graph a.size [e.plug] where
  kind id hlo hid := by rw [hag.kind id hlo (lt_of_lt_of_le hid hes.le.1), kind_of_le hes.le hid]
  wired id hlo hid hplug := by
    rw [hag.wired id hlo (lt_of_lt_of_le hid hes.le.1), wired_of_le hes.le hid]
    refine List.not_mem_cons_of_ne_of_not_mem (by rwa [List.mem_singleton] at hplug) fun hmem => ?_
    obtain ⟨e', he', rfl⟩ := List.mem_map.mp hmem
    exact absurd hid (not_lt.mpr (hes.mem e' he').2.2.1)

theorem Agrees.rest {m : Graph} (hag : Agrees b graph a.size (e.plug :: es.map (·.plug)))
    (h : Adds a m e) : Agrees b graph m.size (es.map (·.plug)) where
  kind id hlo hid := hag.kind id (le_trans h.le.1 hlo) hid
  wired id hlo hid hplugs := by
    refine hag.wired id (le_trans h.le.1 hlo) hid (List.not_mem_cons_of_ne_of_not_mem ?_ hplugs)
    rintro rfl
    exact absurd h.plug_lt (not_lt.mpr hlo)

theorem lieInTurn_of_chain {ps : List Piece} {start stop : Element}
    (h : List.Forall₂ (Lies graph lo) ps es)
    (hchain : (start :: es ++ [stop]).IsChain fun x y : Element =>
      graph.wired x.plug = [y.socket]) :
    ∃ first, graph.wired start.plug = [first] ∧ LieInTurn graph lo ps first stop.socket := by
  induction h generalizing start with
  | nil => exact ⟨stop.socket, (List.isChain_cons_cons.mp hchain).1, by rw [LieInTurn]⟩
  | @cons p e ps es hlies _ ih =>
    obtain ⟨hfirst, hrest⟩ := List.isChain_cons_cons.mp hchain
    obtain ⟨next, hnext, hturn⟩ := ih hrest
    refine ⟨e.socket, hfirst, ?_⟩
    rw [LieInTurn]
    exact ⟨e, next, rfl, hlies, hnext, hturn⟩

theorem lieAside_of_forall {ps : List Piece} {stop : NodeId}
    (h : List.Forall₂ (Lies graph lo) ps es) (hplugs : ∀ e ∈ es, graph.wired e.plug = [stop]) :
    LieAside graph lo ps (es.map (·.socket)) stop := by
  induction h with
  | nil => rw [LieAside, List.map_nil]
  | @cons p e ps es hlies _ ih =>
    obtain ⟨hplug, hplugs⟩ := List.forall_mem_cons.mp hplugs
    rw [LieAside]
    exact ⟨e, _, rfl, hlies, hplug, ih hplugs⟩

theorem lies_slot {type : TokenType} {ident : Option String} {hook : Option Hook}
    (hlo : lo ≤ a.size) (hag : Agrees (a.add (.slot type ident hook)).2 graph a.size [a.size]) :
    Lies graph lo (.slot type ident hook) (.ofNode a.size) := by
  have hadds := adds_add a (.slot type ident hook)
  rw [Lies]
  refine ⟨hlo, rfl, ?_⟩
  rw [hag.kind _ hadds.le_socket hadds.socket_lt, kind_add]
  exact if_pos rfl

theorem lies_addCall {rule : RuleId} {ident : Option String} (hlo : lo ≤ a.size)
    (hag : Agrees (a.addCall rule ident).2 graph a.size [(a.addCall rule ident).1.plug]) :
    Lies graph lo (.call rule ident) (a.addCall rule ident).1 := by
  have hadds := adds_addCall a rule ident
  rw [Lies]
  refine ⟨le_trans hlo hadds.le_socket, le_trans hlo hadds.le_plug, ?_, ?_⟩
  · rw [hag.kind _ hadds.le_socket hadds.socket_lt]
    exact (kind_add _).trans (if_pos rfl)
  · rw [hag.kind _ hadds.le_plug hadds.plug_lt]
    simp only [addCall, fst_add, kind_add, size_add, if_true]
    rw [if_neg (Nat.ne_of_lt (Nat.lt_succ_self _))]

theorem lies_addSequence {ps : List Piece} (h : AddsAll a b es) (hlo : lo ≤ a.size)
    (hag : Agrees (b.addSequence es).2 graph a.size [(b.addSequence es).1.plug])
    (hes : Agrees b graph a.size (es.map (·.plug)) → List.Forall₂ (Lies graph lo) ps es) :
    Lies graph lo (.sequence ps) (b.addSequence es).1 := by
  have hencloses := encloses_addSequence h
  have hchain : (Element.ofNode b.addEnds.1.socket :: es ++
      [Element.ofNode b.addEnds.1.plug]).IsChain fun x y : Element =>
        graph.wired x.plug = [y.socket] := by
    refine (chain_addSequence h).imp_of_mem_imp fun x y hx _ hxy => ?_
    rw [hencloses.wired_eq hag ?_, hxy]
    rw [List.cons_append, List.mem_cons, List.mem_append, List.mem_singleton] at hx
    rcases hx with rfl | hx | rfl
    · exact List.mem_cons_self
    · exact List.mem_cons_of_mem _ (List.mem_map_of_mem hx)
    · -- The last one is linked to nothing yet.
      exact absurd (hencloses.adds_ends.plug.symm.trans hxy) nofun
  obtain ⟨first, hfirst, hturn⟩ := lieInTurn_of_chain (hes (hencloses.agrees hag)) hchain
  rw [Lies]
  exact ⟨hencloses.joins hlo hag, first, hfirst, hturn⟩

theorem lies_addFork {ps : List Piece} (h : AddsAll a b es) (hlo : lo ≤ a.size)
    (hag : Agrees (b.addFork es).2 graph a.size [(b.addFork es).1.plug])
    (hes : Agrees b graph a.size (es.map (·.plug)) → List.Forall₂ (Lies graph lo) ps es) :
    Lies graph lo (.fork ps) (b.addFork es).1 := by
  have hencloses := encloses_addFork h
  obtain ⟨hsocket, hplugs⟩ := wired_addFork h
  rw [Lies]
  refine ⟨hencloses.joins hlo hag, ?_⟩
  rw [show (b.addFork es).1 = b.addEnds.1 from rfl, hencloses.wired_eq hag List.mem_cons_self,
    hsocket]
  refine lieAside_of_forall (hes (hencloses.agrees hag)) fun e he => ?_
  rw [hencloses.wired_eq hag (List.mem_cons_of_mem _ (List.mem_map_of_mem he)), hplugs e he]

theorem lies_addRepeated {m : Multiplicity} {p : Piece} (h : Adds a b e) (hlo : lo ≤ a.size)
    (hag : Agrees (b.addRepeated m e).2 graph a.size [(b.addRepeated m e).1.plug])
    (he : Agrees b graph a.size [e.plug] → Lies graph lo p e) :
    Lies graph lo (.repeated m p) (b.addRepeated m e).1 := by
  have hall := h.cons (addsAll_nil b)
  have hencloses := encloses_addRepeated m hall
  have hsocket := hencloses.wired_eq hag List.mem_cons_self
  have hplug : graph.wired e.plug = _ :=
    hencloses.wired_eq hag (List.mem_cons_of_mem _ List.mem_cons_self)
  have hrepeats := repeats_addRepeated m hall
  rw [Lies]
  refine ⟨hencloses.joins hlo hag, e, he (hencloses.agrees hag), ?_⟩
  cases m with
  | zeroOrOne | zeroOrMore | oneOrMore =>
    simp only [Repeats] at hrepeats ⊢
    exact ⟨hsocket.trans hrepeats.1, hplug.trans hrepeats.2⟩

end Graph

namespace Piece

open GrammarGraph.Graph

variable {parts : Parts} {graph : Graph} {lo : Nat}

mutual

theorem adds_build : ∀ (p : Piece) {a : Graph}, p.Regular →
    Adds a (p.build parts a).2 (p.build parts a).1
  | .slot type ident hook, a, _ => adds_add a (.slot type ident hook)
  | .call rule ident, a, _ => adds_addCall a rule ident
  | .sequence ps, _, h => (encloses_addSequence (addsAll_buildAll ps h)).adds_ends
  | .fork ps, _, h => (encloses_addFork (addsAll_buildAll ps h)).adds_ends
  | .repeated m p, _, h =>
    (encloses_addRepeated m ((adds_build p h).cons (addsAll_nil _))).adds_ends
  | .ref _, _, h | .junction, _, h | .switch _, _, h | .guard _, _, h => absurd h id

theorem addsAll_buildAll : ∀ (ps : List Piece) {a : Graph}, AllRegular ps →
    AddsAll a (buildAll parts ps a).2 (buildAll parts ps a).1
  | [], a, _ => addsAll_nil a
  | p :: ps, _, h => (adds_build p h.1).cons (addsAll_buildAll ps h.2)

end

mutual

/-- A piece lies in any arena that agrees with what building it gave. -/
theorem lies_build : ∀ (p : Piece) {a : Graph}, p.Regular → lo ≤ a.size →
    Agrees (p.build parts a).2 graph a.size [(p.build parts a).1.plug] →
    graph.Lies lo p (p.build parts a).1
  | .slot .., _, _, hlo, hag => lies_slot hlo hag
  | .call .., _, _, hlo, hag => lies_addCall hlo hag
  | .sequence ps, _, h, hlo, hag =>
    lies_addSequence (addsAll_buildAll ps h) hlo hag (lies_buildAll ps h hlo)
  | .fork ps, _, h, hlo, hag =>
    lies_addFork (addsAll_buildAll ps h) hlo hag (lies_buildAll ps h hlo)
  | .repeated _ p, _, h, hlo, hag => lies_addRepeated (adds_build p h) hlo hag (lies_build p h hlo)
  | .ref _, _, h, _, _ | .junction, _, h, _, _ | .switch _, _, h, _, _ | .guard _, _, h, _,
      _ => absurd h id

theorem lies_buildAll : ∀ (ps : List Piece) {a : Graph}, AllRegular ps → lo ≤ a.size →
    Agrees (buildAll parts ps a).2 graph a.size ((buildAll parts ps a).1.map (·.plug)) →
    List.Forall₂ (graph.Lies lo) ps (buildAll parts ps a).1
  | [], _, _, _, _ => .nil
  | p :: ps, a, h, hlo, hag => by
    have hadds : Adds a (p.build parts a).2 (p.build parts a).1 := adds_build p h.1
    have hrest : AddsAll (p.build parts a).2 (buildAll parts ps (p.build parts a).2).2
        (buildAll parts ps (p.build parts a).2).1 :=
      addsAll_buildAll ps h.2
    exact .cons (lies_build p h.1 hlo (hag.first hrest))
      (lies_buildAll ps h.2 (le_trans hlo hadds.le.1) (hag.rest hadds))

end

end Piece

namespace Graph

variable {a graph : Graph} {lo : Nat} {stop : NodeId} {p : Piece}

/-- The body of a regular piece, with its entry, its exit behind it, and the end of the rule
instance. -/
structure BodyOf (graph : Graph) (p : Piece) (lo stop : NodeId) : Prop where
  entry : graph.kind lo = .junction
  exit : graph.kind (lo + 1) = .junction
  leaves : graph.wired (lo + 1) = [stop]
  lies : ∃ e, graph.wired lo = [e.socket] ∧ graph.Lies lo p e ∧ graph.wired e.plug = [lo + 1]

/-- The body of a single piece is built behind its ends and linked with them. -/
theorem links_ofPiece (a : Graph) (p : Piece) (stop : NodeId) :
    ∃ parts, (a.addBody (.ofPiece p) stop).2 =
      (((p.build parts a.addEnds.2).2.connect a.size (p.build parts a.addEnds.2).1.socket).connect
        (p.build parts a.addEnds.2).1.plug (a.size + 1)).connect (a.size + 1) stop :=
  ⟨⟨a.size, a.size + 1, #[]⟩, by simp only [addBody, addEnds, fst_add, size_add]; rfl⟩

/-- Wiring a body of one regular piece makes it lie in the arena, however the arena grows. -/
theorem bodyOf_addBody (hp : p.Regular) (hle : (a.addBody (.ofPiece p) stop).2 ≤ graph) :
    graph.BodyOf p a.size stop := by
  obtain ⟨parts, hbody⟩ := links_ofPiece a p stop
  have hadds : Adds a.addEnds.2 (p.build parts a.addEnds.2).2 (p.build parts a.addEnds.2).1 :=
    p.adds_build hp
  have hlies : Agrees (p.build parts a.addEnds.2).2 graph a.addEnds.2.size
      [(p.build parts a.addEnds.2).1.plug] → graph.Lies a.size p (p.build parts a.addEnds.2).1 :=
    p.lies_build hp (by rw [size_addEnds]; exact Nat.le_add_right _ _)
  generalize (p.build parts a.addEnds.2).2 = b at hbody hadds hlies
  generalize (p.build parts a.addEnds.2).1 = e at hbody hadds hlies
  rw [hbody] at hle
  have hlt : a.size + 1 < b.size := by
    have hsize := hadds.le.1
    rwa [size_addEnds] at hsize
  have hplug : a.size + 1 < e.plug := by
    have hsize := hadds.le_plug
    rwa [size_addEnds] at hsize
  -- None of the links is drawn twice, and each node gets at most one of them.
  have hkind : ∀ id, id < b.size → graph.kind id = b.kind id := fun id hid => by
    rw [kind_of_le hle (by simpa using hid), kind_connect, kind_connect, kind_connect]
  have hwired : ∀ id, id < b.size →
      graph.wired id = (((b.connect a.size e.socket).connect e.plug (a.size + 1)).connect
      (a.size + 1) stop).wired id := fun id hid => wired_of_le hle (by simpa using hid)
  have hends : ∀ id, a.size ≤ id → id < a.size + 2 → b.kind id = .junction ∧ b.wired id = [] := by
    intro id hlo hhi
    rw [kind_of_le hadds.le (by rwa [size_addEnds]), wired_of_le hadds.le (by rwa [size_addEnds]),
      kind_addEnds, wired_addEnds, if_neg (not_lt.mpr hlo)]
    exact ⟨rfl, wired_of_size_le hlo⟩
  obtain ⟨hentry, hentrynil⟩ := hends a.size (le_refl _) (Nat.lt_add_of_pos_right Nat.two_pos)
  obtain ⟨hexit, hexitnil⟩ := hends (a.size + 1) (Nat.le_succ _) (Nat.lt_succ_self _)
  have hne : a.size ≠ a.size + 1 := Nat.ne_of_lt (Nat.lt_succ_self _)
  have hne' : a.size ≠ e.plug := Nat.ne_of_lt (lt_trans (Nat.lt_succ_self _) hplug)
  refine ⟨?_, ?_, ?_, e, ?_, hlies ⟨fun id _ hid => hkind id hid, fun id hlo hid hne => ?_⟩, ?_⟩
  · rw [hkind _ (Nat.lt_of_succ_lt hlt), hentry]
  · rw [hkind _ hlt, hexit]
  · rw [hwired _ hlt]
    refine wired_connect_of_nil (by simpa using hlt) ?_
    rw [wired_connect_of_ne (Nat.ne_of_lt hplug), wired_connect_of_ne hne.symm, hexitnil]
  · rw [hwired _ (Nat.lt_of_succ_lt hlt), wired_connect_of_ne hne, wired_connect_of_ne hne',
      wired_connect_of_nil (Nat.lt_of_succ_lt hlt) hentrynil]
  · rw [List.mem_singleton] at hne
    rw [size_addEnds] at hlo
    rw [hwired id hid, wired_connect_of_ne (Nat.ne_of_gt hlo), wired_connect_of_ne hne,
      wired_connect_of_ne (Nat.ne_of_gt (Nat.lt_of_succ_lt hlo))]
  · rw [hwired _ hadds.plug_lt, wired_connect_of_ne (Nat.ne_of_gt hplug)]
    refine wired_connect_of_nil (by simpa using hadds.plug_lt) ?_
    rw [wired_connect_of_ne hne'.symm, hadds.plug]

/-! ## Regular arenas -/

/-- No node of the arena looks at the path, or at more of a token than its types. -/
def Regular (graph : Graph) : Prop := ∀ id, (graph.kind id).Regular

theorem Regular.of_kind {b c : Graph} (h : b.Regular)
    (hkind : ∀ id, c.kind id = b.kind id) : c.Regular :=
  fun id => by rw [hkind id]; exact h id

theorem Regular.add {b : Graph} {k : NodeKind} (h : b.Regular) (hk : k.Regular) :
    (b.add k).2.Regular := by
  intro id
  rw [kind_add]
  split
  · exact hk
  · exact h id

theorem Regular.addEnds {b : Graph} (h : b.Regular) : b.addEnds.2.Regular :=
  (h.add (k := .junction) trivial).add (k := .junction) trivial

theorem Regular.addRepeated {b : Graph} (m : Multiplicity) (e : Element) (h : b.Regular) :
    (b.addRepeated m e).2.Regular := by
  refine h.addEnds.of_kind fun id => ?_
  cases m <;> simp only [Graph.addRepeated, kind_connect]

end Graph

namespace Piece

open GrammarGraph.Graph

variable {parts : Parts}

mutual

theorem regular_build : ∀ (p : Piece) {b : Graph}, p.Regular → b.Regular →
    (p.build parts b).2.Regular
  | .slot .., _, h, hb => hb.add h
  | .call .., _, _, hb => (hb.add (k := .ruleEnd ..) trivial).add (k := .ruleStart ..) trivial
  | .sequence ps, _, h, hb =>
    (regular_buildAll ps h hb).addEnds.of_kind fun id => (Links.chain _).kind id
  | .fork ps, _, h, hb =>
    (regular_buildAll ps h hb).addEnds.of_kind fun id => (links_foldl _ _ _).kind id
  | .repeated m p, _, h, hb => (regular_build p h hb).addRepeated m _
  | .ref _, _, h, _ | .junction, _, h, _ | .switch _, _, h, _ | .guard _, _, h, _ => absurd h id

theorem regular_buildAll : ∀ (ps : List Piece) {b : Graph}, AllRegular ps → b.Regular →
    (buildAll parts ps b).2.Regular
  | [], _, _, hb => hb
  | p :: ps, _, h, hb => regular_buildAll ps h.2 (regular_build p h.1 hb)

end

theorem regular_addBody {p : Piece} {b : Graph} (stop : NodeId) (h : p.Regular) (hb : b.Regular) :
    (b.addBody (.ofPiece p) stop).2.Regular := by
  obtain ⟨parts, hbody⟩ := links_ofPiece b p stop
  rw [hbody]
  have hregular : (p.build parts b.addEnds.2).2.Regular := regular_build p h hb.addEnds
  refine hregular.of_kind fun id => ?_
  rw [kind_connect, kind_connect, kind_connect]

end Piece

end GrammarGraph
