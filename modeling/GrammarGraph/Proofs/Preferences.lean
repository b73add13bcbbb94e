import GrammarGraph.Proofs.Exhaustive
import GrammarGraph.Proofs.Shapes

/-!
# Which way is tried first

A search tries the links of a node in the order in which they were drawn, so where the path that it
finds goes on along one of them, going on along those before it was in vain
(`Search.inVain_of_explore`).  An optional piece, or one that may be repeated any number of times,
is entered before it is passed by.  A piece that is to be repeated at least once is left before it
is entered once more, unless it was linked to itself before (`Graph.prefers_addRepeated`).  Whatever
is linked later does not change that.
-/

namespace GrammarGraph

namespace Graph

variable {a b c base graph : Graph} {e : Element} {u n s t : NodeId}

/-! ## The order of links -/

/-- Of the nodes that a node is linked to the one comes before the other. -/
def Prefers (g : Graph) (u first second : NodeId) : Prop :=
  ∃ left right, g.wired u = left ++ second :: right ∧ first ∈ left ∧ second ∉ left

theorem Prefers.mem {g : Graph} {first second : NodeId} {left right : List NodeId}
    (h : g.Prefers u first second) (hwired : g.wired u = left ++ second :: right) :
    first ∈ left := by
  obtain ⟨left', right', hwired', hfirst, hsecond⟩ := h
  rcases List.append_eq_append_iff.mp (hwired'.symm.trans hwired) with ⟨more, rfl, -⟩ |
    ⟨more, rfl, hmore⟩
  · exact List.mem_append_left _ hfirst
  · cases more with
    | nil => rwa [List.append_nil] at hfirst
    | cons n more =>
      obtain rfl : second = n := (List.cons.inj hmore).1
      exact absurd (List.mem_append_right _ List.mem_cons_self) hsecond

/-- Links may have been drawn behind those that were there. -/
def Grows (a b : Graph) : Prop := ∀ id, a.wired id <+: b.wired id

theorem Grows.refl (g : Graph) : Grows g g := fun _ => List.prefix_rfl

theorem Grows.trans (hab : Grows a b) (hbc : Grows b c) : Grows a c :=
  fun id => (hab id).trans (hbc id)

theorem Grows.of_le (h : a ≤ b) : Grows a b := by
  intro id
  rcases lt_or_ge id a.size with hid | hid
  · rw [wired_of_le h hid]
  · rw [wired_of_size_le hid]
    exact List.nil_prefix

theorem grows_add (g : Graph) (k : NodeKind) : Grows g (g.add k).2 := by
  intro id
  rw [wired_add]

theorem grows_connect (g : Graph) (s t : NodeId) : Grows g (g.connect s t) := by
  intro id
  rcases wired_connect g s t id with hwired | ⟨-, -, hwired⟩
  · rw [hwired]
  · rw [hwired]
    exact List.prefix_append _ _

theorem Grows.prefers (h : Grows a b) {first second : NodeId}
    (hprefers : a.Prefers u first second) : b.Prefers u first second := by
  obtain ⟨left, right, hwired, hfirst, hsecond⟩ := hprefers
  obtain ⟨more, hmore⟩ := h u
  refine ⟨left, right ++ more, ?_, hfirst, hsecond⟩
  rw [← hmore, hwired, List.append_assoc, List.cons_append]

/-- A new link comes behind the others. -/
theorem prefers_connect (hs : s < graph.size) (ht : t ∉ graph.wired s) (hn : n ∈ graph.wired s) :
    (graph.connect s t).Prefers s n t :=
  ⟨graph.wired s, [], wired_connect_self hs ht, hn, ht⟩

/-! ## Repetitions -/

/-- A node from which a repeated piece can be entered as well as left, and its links to
either end in their order. -/
structure Turn where
  node : NodeId
  first : NodeId
  second : NodeId

/-- The links between which there is a choice where a piece of an arena is repeated. -/
def turn (g : Graph) (e : Element) : Multiplicity → Turn
  | .zeroOrOne | .zeroOrMore => ⟨g.addEnds.1.socket, e.socket, g.addEnds.1.plug⟩
  | .oneOrMore =>
    if e.socket ∈ g.wired e.plug then ⟨e.plug, e.socket, g.addEnds.1.plug⟩
    else ⟨e.plug, g.addEnds.1.plug, e.socket⟩

/-- The piece is there, and leads to nothing that is not there yet. -/
structure Contains (g : Graph) (e : Element) : Prop where
  socket_lt : e.socket < g.size
  plug_lt : e.plug < g.size
  wired_lt : ∀ n ∈ g.wired e.plug, n < g.size

/-- The link that passes the piece by is drawn last. -/
theorem prefers_enter {start stop : NodeId} (hstart : start < graph.size)
    (hwired : graph.wired start = [e.socket]) (hplug : start ≠ e.plug) (hstop : stop ≠ e.socket)
    (t : NodeId) : ((graph.connect e.plug t).connect start stop).Prefers start e.socket stop := by
  have hwired' : (graph.connect e.plug t).wired start = [e.socket] := by
    rw [wired_connect_of_ne hplug, hwired]
  refine prefers_connect (by rwa [size_connect]) ?_ ?_
  · rwa [hwired', List.mem_singleton]
  · rw [hwired']
    exact List.mem_singleton_self _

/-- The link into the piece is drawn last, unless there is one already. -/
theorem prefers_leave {stop : NodeId} (hplug : e.plug < graph.size)
    (hstop : stop ∉ graph.wired e.plug) (hne : stop ≠ e.socket)
    (hunlinked : e.socket ∉ graph.wired e.plug) :
    ((graph.connect e.plug stop).connect e.plug e.socket).Prefers e.plug stop e.socket := by
  have hwired := wired_connect_self hplug hstop
  refine prefers_connect (by rwa [size_connect]) ?_ ?_
  · rw [hwired, List.mem_append, List.mem_singleton]
    exact not_or.mpr ⟨hunlinked, Ne.symm hne⟩
  · rw [hwired]
    exact List.mem_append_right _ (List.mem_singleton_self _)

/-- The ends of a repetition are there, and the first link leads into the piece. -/
def entered (g : Graph) (e : Element) : Graph := g.addEnds.2.connect g.size e.socket

theorem size_entered (g : Graph) (e : Element) : (g.entered e).size = g.size + 2 := by
  rw [entered, size_connect, size_addEnds]

theorem wired_entered (g : Graph) (e : Element) : (g.entered e).wired g.size = [e.socket] := by
  refine wired_connect_of_nil ?_ ?_
  · rw [size_addEnds]
    exact Nat.lt_add_of_pos_right Nat.two_pos
  · rw [wired_addEnds, wired_of_size_le (le_refl _)]

theorem wired_entered_plug (he : base.Contains e) :
    (base.entered e).wired e.plug = base.wired e.plug := by
  rw [entered, wired_connect_of_ne (Nat.ne_of_lt he.plug_lt), wired_addEnds]

/-- The order of the two links, whatever is linked later. -/
theorem prefers_addRepeated (he : base.Contains e) (m : Multiplicity)
    (h : (base.addRepeated m e).2.Grows graph) :
    graph.Prefers (base.turn e m).node (base.turn e m).first (base.turn e m).second := by
  apply h.prefers
  have hstart : base.size < (base.entered e).size := by
    rw [size_entered]
    exact Nat.lt_add_of_pos_right Nat.two_pos
  have hlt : e.plug < (base.entered e).size := he.plug_lt.trans hstart
  have hstop : base.size + 1 ≠ e.socket := Nat.ne_of_gt (Nat.lt_succ_of_lt he.socket_lt)
  have hleave : base.size + 1 ∉ (base.entered e).wired e.plug := by
    rw [wired_entered_plug he]
    exact fun hmem => absurd (he.wired_lt _ hmem) (Nat.not_lt.mpr (Nat.le_succ _))
  unfold addRepeated turn
  simp only [fst_addEnds, ← wired_entered_plug he, ← entered.eq_1]
  cases m with
  | zeroOrOne | zeroOrMore =>
    exact prefers_enter hstart (wired_entered base e) (Nat.ne_of_gt he.plug_lt) hstop _
  | oneOrMore =>
    simp only
    split
    · next hlinked => exact (grows_connect _ _ _).prefers (prefers_connect hlt hleave hlinked)
    · next hunlinked => exact prefers_leave hlt hleave hstop hunlinked

end Graph

/-! ## Repetitions in bodies -/

namespace Graph

variable {g : Graph}

theorem Grows.foldl {α : Type} {f : Graph → α → Graph} (step : ∀ g x, Grows g (f g x))
    (xs : List α) : Grows g (xs.foldl f g) := by
  induction xs generalizing g with
  | nil => exact .refl g
  | cons x xs ih => exact (step g x).trans ih

theorem grows_chain (g : Graph) (es : List Element) : Grows g (g.chain es) := by
  fun_induction chain g es with
  | case1 g a b rest ih => exact (grows_connect g a.plug b.socket).trans ih
  | case2 => exact .refl _

theorem grows_addEnds (g : Graph) : Grows g g.addEnds.2 := (grows_add g _).trans (grows_add _ _)

theorem grows_addSequence (g : Graph) (es : List Element) : Grows g (g.addSequence es).2 :=
  (grows_addEnds g).trans (grows_chain _ _)

theorem grows_addFork (g : Graph) (es : List Element) : Grows g (g.addFork es).2 :=
  (grows_addEnds g).trans (.foldl (fun g _ => (grows_connect g _ _).trans (grows_connect _ _ _)) es)

theorem grows_addRepeated (g : Graph) (m : Multiplicity) (e : Element) :
    Grows g (g.addRepeated m e).2 := by
  refine (grows_addEnds g).trans ((grows_connect _ g.addEnds.1.socket e.socket).trans ?_)
  cases m <;> exact (grows_connect _ _ _).trans (grows_connect _ _ _)

theorem grows_addSwitch (g : Graph) (bs : List (String × Element)) : Grows g (g.addSwitch bs).2 :=
  ((grows_add g _).trans (.foldl (fun g _ => grows_connect g _ _) bs)).trans (grows_add _ _)

/-- What is drawn between nodes of an arena does not lead out of it. -/
theorem Draws.wired_lt {lo : Nat} (h : Draws lo base g)
    (hbase : ∀ id, lo ≤ id → base.wired id = []) :
    ∀ id, lo ≤ id → ∀ n ∈ g.wired id, n < g.size := by
  induction h with
  | refl =>
    intro id hid n hn
    rw [hbase id hid] at hn
    exact absurd hn List.not_mem_nil
  | add _ _ ih =>
    intro id hid n hn
    rw [wired_add] at hn
    rw [size_add]
    exact Nat.lt_succ_of_lt (ih id hid n hn)
  | connect _ _ _ ht ih =>
    intro id hid n hn
    rw [size_connect]
    rcases mem_wired_connect hn with hn | ⟨-, rfl⟩
    · exact ih id hid n hn
    · exact ht

theorem Builds.contains {apart : Prop} {arena g' : Graph} (h : Builds apart base arena e g') :
    g'.Contains e where
  socket_lt := h.part.socket.lt
  plug_lt := h.part.plug_lt
  wired_lt := h.wires.draws.wired_lt (fun _ hid => wired_of_size_le hid) _ h.part.le_plug

end Graph

namespace Piece

open GrammarGraph.Graph

variable {base g : Graph} {parts : Parts} {q : Piece}

mutual

theorem grows_build (parts : Parts) : ∀ (p : Piece) {g : Graph}, Grows g (p.build parts g).2
  | ref _, g => .refl g
  | junction, g | slot _ _ _, g => grows_add g _
  | call _ _, g | guard _, g => (grows_add g _).trans (grows_add _ _)
  | sequence ps, _ => (grows_buildAll parts ps).trans (grows_addSequence _ _)
  | fork ps, _ => (grows_buildAll parts ps).trans (grows_addFork _ _)
  | repeated m p, _ => (grows_build parts p).trans (grows_addRepeated _ m _)
  | switch bs, _ => (grows_buildBranches parts bs).trans (grows_addSwitch _ _)

theorem grows_buildAll (parts : Parts) :
    ∀ (ps : List Piece) {g : Graph}, Grows g (buildAll parts ps g).2
  | [], g => .refl g
  | p :: ps, _ => (grows_build parts p).trans (grows_buildAll parts ps)

theorem grows_buildBranches (parts : Parts) : ∀ (bs : List (String × Piece)) {g : Graph},
    Grows g (buildBranches parts bs g).2
  | [], g => .refl g
  | b :: bs, _ => (grows_buildBranch parts b).trans (grows_buildBranches parts bs)

theorem grows_buildBranch (parts : Parts) :
    ∀ (b : String × Piece) {g : Graph}, Grows g (buildBranch parts b g).2
  | (_, p), _ => grows_build parts p

end

/-- The one piece is the other one or occurs in it. -/
inductive Occurs (q : Piece) : Piece → Prop
  | refl : Occurs q q
  | sequence {p : Piece} {ps : List Piece} : p ∈ ps → Occurs q p → Occurs q (.sequence ps)
  | fork {p : Piece} {ps : List Piece} : p ∈ ps → Occurs q p → Occurs q (.fork ps)
  | repeated {p : Piece} {m : Multiplicity} : Occurs q p → Occurs q (.repeated m p)
  | switch {p : Piece} {key : String} {bs : List (String × Piece)} : (key, p) ∈ bs → Occurs q p →
      Occurs q (.switch bs)

/-- On the way from one arena to the other one the piece was built. -/
def BuiltIn (base graph : Graph) (q : Piece) : Prop :=
  ∃ parts g, Wires False base g ∧ g.HasParts False base.size parts ∧ Grows (q.build parts g).2 graph

theorem BuiltIn.of_grows {graph graph' : Graph} (h : BuiltIn base graph q)
    (hgrows : Grows graph graph') : BuiltIn base graph' q := by
  obtain ⟨parts, g, hw, hparts, hq⟩ := h
  exact ⟨parts, g, hw, hparts, hq.trans hgrows⟩

theorem builtIn_buildAll : ∀ {ps : List Piece} {g : Graph}, q ∈ ps → Wires False base g →
    g.HasParts False base.size parts → BuiltIn base (buildAll parts ps g).2 q
  | [], _, hmem, _, _ => absurd hmem List.not_mem_nil
  | p :: ps, g, hmem, hw, hparts => by
    rcases List.mem_cons.mp hmem with rfl | hmem
    · exact ⟨parts, g, hw, hparts, grows_buildAll parts ps⟩
    · obtain ⟨hw', hg, -⟩ := build_builds p hw hparts False.elim
      have hrest := builtIn_buildAll hmem hw' (hparts.grown hg)
      exact hrest

theorem builtIn_buildBranches {key : String} :
    ∀ {bs : List (String × Piece)} {g : Graph}, (key, q) ∈ bs → Wires False base g →
    g.HasParts False base.size parts → BuiltIn base (buildBranches parts bs g).2 q
  | [], _, hmem, _, _ => absurd hmem List.not_mem_nil
  | b :: bs, g, hmem, hw, hparts => by
    rcases List.mem_cons.mp hmem with rfl | hmem
    · exact ⟨parts, g, hw, hparts, grows_buildBranches parts bs⟩
    · obtain ⟨hw', hg, -⟩ := buildBranch_builds b hw hparts False.elim
      have hrest := builtIn_buildBranches hmem hw' (hparts.grown hg)
      exact hrest

/-- With a piece the pieces are built that occur in it. -/
theorem Occurs.builtIn {p : Piece} {graph : Graph} (h : Occurs q p) (hp : BuiltIn base graph p) :
    BuiltIn base graph q := by
  induction h generalizing graph with
  | refl => exact hp
  | sequence hmem _ ih =>
    obtain ⟨parts, g, hw, hparts, hgrows⟩ := hp
    exact ih ((builtIn_buildAll hmem hw hparts).of_grows ((grows_addSequence _ _).trans hgrows))
  | fork hmem _ ih =>
    obtain ⟨parts, g, hw, hparts, hgrows⟩ := hp
    exact ih ((builtIn_buildAll hmem hw hparts).of_grows ((grows_addFork _ _).trans hgrows))
  | @repeated p m _ ih =>
    obtain ⟨parts, g, hw, hparts, hgrows⟩ := hp
    exact ih ⟨parts, g, hw, hparts, (grows_addRepeated _ m _).trans hgrows⟩
  | switch hmem _ ih =>
    obtain ⟨parts, g, hw, hparts, hgrows⟩ := hp
    exact ih ((builtIn_buildBranches hmem hw hparts).of_grows ((grows_addSwitch _ _).trans hgrows))

end Piece

namespace Body

open GrammarGraph.Graph

variable {base : Graph} {p : Piece}

theorem grows_wire : ∀ (body : Body) {parts : Parts} {g : Graph}, Grows g (body.wire parts g)
  | [], _, g => .refl g
  | .part p :: rest, parts, _ => (p.grows_build parts).trans (grows_wire rest)
  | .chain _ :: rest, _, g => (grows_chain g _).trans (grows_wire rest)

theorem builtIn_wire : ∀ {body : Body} {parts : Parts} {g : Graph}, .part p ∈ body →
    Wires False base g → g.HasParts False base.size parts → p.BuiltIn base (body.wire parts g)
  | [], _, _, hmem, _, _ => absurd hmem List.not_mem_nil
  | .part p' :: rest, parts, g, hmem, hw, hparts => by
    rcases List.mem_cons.mp hmem with heq | hmem
    · obtain rfl := Clause.part.inj heq
      exact ⟨parts, g, hw, hparts, grows_wire rest⟩
    · obtain ⟨hw', hg, he⟩ := p'.build_builds hw hparts False.elim
      have hrest := builtIn_wire hmem hw' (hparts.push hg he)
      exact hrest
  | .chain refs :: rest, parts, g, hmem, hw, hparts => by
    obtain ⟨hw', hg⟩ := hparts.chain hw False.elim
    have hmem' : .part p ∈ rest := (List.mem_cons.mp hmem).resolve_left nofun
    have hrest := builtIn_wire hmem' hw' (hparts.grown hg)
    exact hrest

/-- A repeated piece that occurs in a body is wired like that in the arena of the
body, and in those after it. -/
theorem exists_addRepeated {body : Body} {m : Multiplicity} {q : Piece} {arena graph : Graph}
    {stop : NodeId} (hp : .part p ∈ body) (h : Piece.Occurs (.repeated m q) p)
    (hle : (arena.addBody body stop).2 ≤ graph) : ∃ parts g e base, q.build parts g = (e, base) ∧
      base.Contains e ∧ (base.addRepeated m e).2.Grows graph := by
  obtain ⟨hw, hparts⟩ := wires_entry_exit arena
  obtain ⟨parts, g, hw', hparts', hgrows⟩ := h.builtIn (builtIn_wire hp hw hparts)
  exact ⟨parts, g, _, _, rfl, (q.build_builds hw' hparts' False.elim).contains,
    Grows.trans hgrows ((grows_connect _ _ _).trans (.of_le hle))⟩

end Body

/-! ## What is tried in vain -/

namespace Path

theorem tokensOf_append (later els : List PathElement) :
    tokensOf (later ++ els) = tokensOf els ++ tokensOf later := by
  rw [tokensOf, tokensOf, tokensOf, List.reverse_append, List.filterMap_append]

end Path

namespace Search

variable {g : Grammar} {s s' : Search} {tokens : List Token} {n m : NodeId} {ns : List NodeId}
  {graph : Graph} {e : PathElement} {els later : List PathElement}
  {visit : List Token → Search → Option Answer}

/-- From the path over the elements, in an arena that the search had then, no path that is
accepted goes on to the node. -/
def InVain (g : Grammar) (graph : Graph) (tokens : List Token) (els : List PathElement)
    (n : NodeId) : Prop :=
  ∃ arena fuel kept, arena ≤ graph ∧
    attempt g tokens (explore g fuel) (ofElements arena g els) n = some (.nothing kept)

/-- The path keeps to its arena, and is the one that its elements give. -/
structure Grounded (g : Grammar) (s : Search) : Prop where
  wellFormed : s.graph.WellFormed
  lt_size : ∀ e ∈ s.path.elements, e.node < s.graph.size
  isReplay : s.IsReplay g

namespace Grounded

theorem of_le (h : s.Grounded g) (hle : s.graph ≤ graph) (hgraph : graph.WellFormed) :
    Grounded g { s with graph } where
  wellFormed := hgraph
  lt_size e he := lt_of_lt_of_le (h.lt_size e he) hle.1
  isReplay := h.isReplay.of_le hle h.lt_size

theorem push (h : s.Grounded g) (hn : n < s.graph.size) (token : Option Token) :
    (s.push g n token).Grounded g where
  wellFormed := h.wellFormed
  lt_size := List.forall_mem_cons.mpr ⟨hn, h.lt_size⟩
  isReplay := h.isReplay.push n token

end Grounded

/-- An attempt that finds a path steps onto the node, with the next token if it is a slot,
and finds it from there. -/
theorem exists_of_attempt_found (h : attempt g tokens visit s n = some (.found s')) :
    ∃ token rest, tokens = token.toList ++ rest ∧
      visit rest (s.push g n token) = some (.found s') := by
  unfold attempt at h
  split at h
  · exact absurd (Option.some.inj h) nofun
  · split at h
    · exact absurd (Option.some.inj h) nofun
    · next type ident hook t rest hkind =>
      split at h
      · obtain ⟨answer, hvisit, hanswer⟩ := Option.map_eq_some_iff.mp h
        cases answer with
        | nothing kept => exact absurd hanswer nofun
        | found s₁ =>
          obtain rfl : s₁ = s' := Answer.found.inj hanswer
          exact ⟨some t, rest, rfl, hvisit⟩
      · exact absurd (Option.some.inj h) nofun
    · exact ⟨none, _, rfl, h⟩

/-- The attempts before the one that finds a path are in vain, in arenas that extend each other. -/
theorem exists_of_attemptEach_found {R : Graph → Graph → Prop} (hrefl : ∀ a, R a a)
    (htrans : ∀ {a b c}, R a b → R b c → R a c)
    (hv : ∀ tokens s answer, visit tokens s = some answer → R s.graph (answer.arena s.graph))
    (h : attemptEach g tokens visit ns s = some (.found s')) :
    ∃ left n right graph, ns = left ++ n :: right ∧ R s.graph graph ∧
      attempt g tokens visit { s with graph } n = some (.found s') ∧
      ∀ m ∈ left, ∃ arena kept, R s.graph arena ∧ R arena graph ∧
        attempt g tokens visit { s with graph := arena } m = some (.nothing kept) := by
  induction ns generalizing s with
  | nil => cases h
  | cons n ns ih =>
    rw [attemptEach] at h
    split at h
    · next kept hattempt =>
      obtain ⟨answer, hrest, hanswer⟩ := Option.map_eq_some_iff.mp h
      cases answer with
      | nothing kept' => cases hanswer
      | found s₁ =>
        obtain rfl : s₁ = s' := Answer.found.inj hanswer
        have harena : R s.graph (kept.getD s.graph) := arena_attempt hrefl hv hattempt
        obtain ⟨left, n', right, graph, rfl, hgraph, hfound, hvain⟩ := ih hrest
        refine ⟨n :: left, n', right, graph, rfl, htrans harena hgraph, hfound,
          List.forall_mem_cons.mpr ⟨?_, ?_⟩⟩
        · exact ⟨s.graph, kept, hrefl _, htrans harena hgraph, hattempt⟩
        · intro m hm
          obtain ⟨arena, kept', hle, hle', hattempt'⟩ := hvain m hm
          exact ⟨arena, kept', htrans harena hle, hle', hattempt'⟩
    · exact ⟨[], n, ns, s.graph, rfl, hrefl _, h, fun _ hm => absurd hm List.not_mem_nil⟩

/-- How an enumeration changes the arena. -/
def Enlarges (a b : Graph) : Prop := a ≤ b ∧ (a.WellFormed → b.WellFormed)

theorem Enlarges.refl (a : Graph) : Enlarges a a := ⟨le_refl a, id⟩

theorem Enlarges.trans {a b c : Graph} (h : Enlarges a b) (h' : Enlarges b c) : Enlarges a c :=
  ⟨le_trans h.1 h'.1, h'.2 ∘ h.2⟩

theorem enlarges_of_successors {a b : Graph} {id : NodeId} {ctx : Context} {next : List NodeId}
    (h : a.successors g id ctx = (some next, b)) : Enlarges a b :=
  have hleaves := Graph.leaves_of_successors h
  ⟨hleaves.le, hleaves.wellFormed⟩

/-- What is found where the search explores on: either the path is accepted as it is, or one of the
successors leads to what is found, and those before it do not. -/
inductive Finds (g : Grammar) (fuel : Nat) (tokens : List Token) (s s' : Search) : Prop
  | accepted : s'.path = s.path → Finds g fuel tokens s s'
  | step {tip : PathElement} {left right : List NodeId} {n : NodeId} {a b : Graph}
      {token : Option Token} {rest : List Token} : s.path.tip? = some tip →
      s.graph.successors g tip.node ⟨s.path, tokens.head?⟩ = (some (left ++ n :: right), a) →
      Enlarges a b → tokens = token.toList ++ rest →
      explore g fuel rest (Search.push g { s with graph := b } n token) = some (.found s') →
      (∀ m ∈ left, ∃ arena kept, Enlarges a arena ∧ Enlarges arena b ∧
        attempt g tokens (explore g fuel) { s with graph := arena } m = some (.nothing kept)) →
      Finds g fuel tokens s s'

theorem finds_of_explore {fuel : Nat} (h : explore g (fuel + 1) tokens s = some (.found s')) :
    Finds g fuel tokens s s' := by
  rw [explore] at h
  split at h
  · cases h
  · next tip htip =>
    split at h
    · cases h
    · next next a hsucc =>
      split at h
      · obtain rfl := Answer.found.inj (Option.some.inj h)
        exact .accepted rfl
      · obtain ⟨left, n, right, b, rfl, hab, hfound, hvain⟩ :=
          exists_of_attemptEach_found Enlarges.refl Enlarges.trans
          (fun _ _ _ => arena_explore_of Enlarges.refl Enlarges.trans enlarges_of_successors) h
        obtain ⟨token, rest, htokens, hrest⟩ := exists_of_attempt_found hfound
        exact .step htip hsucc hab htokens hrest hvain

/-- What is found extends the path. -/
theorem suffix_of_explore : ∀ {fuel : Nat} {tokens : List Token} {s : Search},
    explore g fuel tokens s = some (.found s') → s.path.elements <:+ s'.path.elements
  | 0, _, _, h => absurd h nofun
  | _ + 1, _, _, h => by
    cases finds_of_explore h with
    | accepted hpath => rw [hpath]
    | step _ _ _ _ hrest _ => exact (List.suffix_cons _ _).trans (suffix_of_explore hrest)

/-- Where what is found goes on from the tip to a node, it is found from there, and the nodes that
come before it were tried before. -/
theorem Finds.goes_on {fuel : Nat} (h : Finds g fuel tokens s s') (hs : s.Grounded g)
    (hle : s.graph ≤ s'.graph) {t : Option Token}
    (hels : s'.path.elements = later ++ ⟨n, t⟩ :: e :: els) (hhere : s.path.elements = e :: els)
    (hplain : (s'.graph.kind e.node).isPlain = true) :
    ∃ left right b rest,
      s'.graph.wired e.node = left ++ n :: right ∧ Enlarges s.graph b ∧ tokens = t.toList ++ rest ∧
      explore g fuel rest (Search.push g { s with graph := b } n t) = some (.found s') ∧
      ∀ m ∈ left, ∃ arena kept, Enlarges s.graph arena ∧ Enlarges arena b ∧
        attempt g tokens (explore g fuel) { s with graph := arena } m = some (.nothing kept) := by
  cases h with
  | accepted hpath =>
    -- then the path does not go on
    rw [hpath, hhere] at hels
    have hlength := congrArg List.length hels
    simp only [List.length_append, List.length_cons] at hlength
    omega
  | @step tip left right n' a b token rest htip hsucc hab htokens hfound hvain =>
    obtain ⟨rest', htip'⟩ := exists_rest htip
    obtain rfl : tip = e := (List.cons.inj (htip'.symm.trans hhere)).1
    have htipLt : tip.node < s.graph.size :=
      hs.lt_size tip (by rw [htip']; exact List.mem_cons_self)
    have hnext := suffix_of_explore hfound
    rw [elements_push, hhere] at hnext
    have hwhole : ⟨n, t⟩ :: tip :: els <:+ s'.path.elements := hels ▸ List.suffix_append _ _
    have hsame := List.suffix_of_suffix_length_le hnext hwhole (le_refl _)
    obtain ⟨rfl, rfl⟩ := PathElement.mk.inj (List.cons.inj (hsame.eq_of_length rfl)).1
    rw [Graph.kind_of_le hle htipLt] at hplain
    rw [Graph.successors_of_isPlain g hplain] at hsucc
    obtain ⟨hwired, rfl⟩ := Prod.mk.inj hsucc
    rw [← Graph.wired_of_le hle htipLt] at hwired
    exact ⟨left, right, b, rest, Option.some.inj hwired, hab, htokens, hfound, hvain⟩

/-- Where what is found goes on from the tip to a node, going on to the nodes that
come before it is in vain. -/
theorem Finds.inVain {fuel : Nat} (h : Finds g fuel tokens s s') (hs : s.Grounded g)
    (hle : s.graph ≤ s'.graph)
    (htokens : Path.tokensOf s.path.elements ++ tokens = Path.tokensOf s'.path.elements)
    {t : Option Token} (hels : s'.path.elements = later ++ ⟨n, t⟩ :: e :: els)
    (hhere : s.path.elements = e :: els) (hprefers : s'.graph.Prefers e.node m n)
    (hplain : (s'.graph.kind e.node).isPlain = true) :
    InVain g s'.graph (Path.tokensOf (later ++ [⟨n, t⟩])) (e :: els) m := by
  obtain ⟨left, right, b, rest, hwired, hab, -, hfound, hvain⟩ := h.goes_on hs hle hels hhere hplain
  obtain ⟨arena, kept, harena, harena', hattempt⟩ := hvain m (hprefers.mem hwired)
  have hreplay := (hs.of_le harena.1 (harena.2 hs.wellFormed)).isReplay
  refine ⟨arena, fuel, kept, le_trans harena'.1 (arena_explore hfound), ?_⟩
  rw [hhere, hels, List.append_cons, Path.tokensOf_append] at htokens
  rw [ofElements, ← List.append_cancel_left htokens, ← hhere, ← hreplay]
  exact hattempt

/-- What is found is found from each part of its path on. -/
theorem explore_of_suffix : ∀ {fuel : Nat} {tokens : List Token} {s : Search},
    explore g fuel tokens s = some (.found s') → s.Grounded g →
    Path.tokensOf s.path.elements ++ tokens = Path.tokensOf s'.path.elements →
    ∀ {later els : List PathElement}, s'.path.elements = later ++ els → s.path.elements <:+ els →
      ∃ fuel arena, (ofElements arena g els).Grounded g ∧
        explore g (fuel + 1) (Path.tokensOf later) (ofElements arena g els) = some (.found s')
  | 0, _, _, h => absurd h nofun
  | fuel + 1, tokens, s, h => by
    intro hs htokens later els hels hsuffix
    by_cases hhere : s.path.elements = els
    · refine ⟨fuel, s.graph, ?_⟩
      rw [hels, Path.tokensOf_append, hhere] at htokens
      rw [ofElements, ← hhere, ← hs.isReplay, ← List.append_cancel_left htokens]
      exact ⟨hs, h⟩
    have hshorter : s.path.elements.length < els.length :=
      lt_of_le_of_ne hsuffix.length_le fun hlength => hhere (hsuffix.eq_of_length hlength)
    cases finds_of_explore h with
    | accepted hpath =>
      -- then the path ends before it comes to the elements
      rw [← hpath, hels, List.length_append] at hshorter
      omega
    | @step tip left right n' a b token rest htip hsucc hab hrest hfound _ =>
      have hleaves := Graph.leaves_of_successors hsucc
      have hground :=
        hs.of_le (le_trans hleaves.le hab.1) (hab.2 (hleaves.wellFormed hs.wellFormed))
      have hlt : n' < b.size := lt_of_lt_of_le (hleaves.lt_size hs.wellFormed (by simp)) hab.1.1
      refine explore_of_suffix hfound (hground.push hlt token) ?_ hels ?_
      · rw [elements_push, Path.tokensOf_cons, List.append_assoc, ← hrest, htokens]
      · have hnext := suffix_of_explore hfound
        rw [elements_push] at hnext ⊢
        exact List.suffix_of_suffix_length_le hnext (hels ▸ List.suffix_append _ _) hshorter

/-- Where what is found goes on to a node, going on to the nodes that come before it is in vain. -/
theorem inVain_of_explore {fuel : Nat} (h : explore g fuel tokens s = some (.found s'))
    (hs : s.Grounded g)
    (htokens : Path.tokensOf s.path.elements ++ tokens = Path.tokensOf s'.path.elements)
    {t : Option Token} (hels : s'.path.elements = later ++ ⟨n, t⟩ :: e :: els)
    (hsuffix : s.path.elements <:+ e :: els) (hprefers : s'.graph.Prefers e.node m n)
    (hplain : (s'.graph.kind e.node).isPlain = true) :
    InVain g s'.graph (Path.tokensOf (later ++ [⟨n, t⟩])) (e :: els) m := by
  obtain ⟨fuel, arena, hground, hfound⟩ :=
    explore_of_suffix h hs htokens (hels.trans (List.append_cons ..)) hsuffix
  refine (finds_of_explore hfound).inVain hground (arena_explore hfound) ?_ hels
    (elements_ofElements ..) hprefers hplain
  rw [elements_ofElements, hels, ← Path.tokensOf_append, List.append_assoc, List.singleton_append]

end Search

namespace Parser

variable {p : Parser} {text : List Char} {source : Option String} {fuel : Nat} {s : Search}

/-- What the search finds the enumeration finds as well. -/
theorem exists_explore_of_searchWithin (hooks : p.HooksRevert text source)
    (h : p.searchWithin fuel text source = some (.ok s)) :
    ∃ fuel, Search.explore p.grammar fuel s.path.tokens (.start p.grammar) = some (.found s) := by
  obtain ⟨stream, hpulls, -, -, hend⟩ := pulls_of_searchWithin h
  have hahead := mapM_id_eq_ok.mp (tokenizeFrom_of_pulls hpulls hend)
  obtain ⟨answer, ha, hleads⟩ := completes_of_iterate hooks .refl hahead (.inr rfl) h
  obtain ⟨bound, hexplore⟩ := ha.explores rfl
  cases answer with
  | found s' =>
    obtain rfl : s = s' := Option.some.inj hleads
    exact ⟨bound, hexplore bound (le_refl _)⟩
  | nothing kept => exact absurd hleads (by rintro ⟨⟩)

/-- Where the path that was found goes on to a node, going on to the nodes that
come before it is in vain. -/
theorem inVain_of_searchWithin (hooks : p.HooksRevert text source)
    (h : p.searchWithin fuel text source = some (.ok s)) {later els : List PathElement}
    {n m : NodeId} {t : Option Token} {e : PathElement}
    (hels : s.path.elements = later ++ ⟨n, t⟩ :: e :: els) (hprefers : s.graph.Prefers e.node m n)
    (hplain : (s.graph.kind e.node).isPlain = true) :
    Search.InVain p.grammar s.graph (Path.tokensOf (later ++ [⟨n, t⟩])) (e :: els) m := by
  obtain ⟨bound, hexplore⟩ := exists_explore_of_searchWithin hooks h
  have hvalid := Search.valid_start p.grammar
  have hroot : (Search.start p.grammar).path.elements <:+ e :: els :=
    List.suffix_of_suffix_length_le (Search.suffix_of_explore hexplore)
      (hels ▸ ((List.suffix_cons _ _).trans (List.suffix_append _ _))) (Nat.le_add_left 1 _)
  exact Search.inVain_of_explore hexplore ⟨hvalid.wellFormed, hvalid.lt_size,
    Search.isReplay_start p.grammar⟩ (List.nil_append _) hels hroot hprefers hplain

/-- The order of the two links by which a repeated piece is entered and left, in all arenas that
come after it; that it is this order for every repetition in the bodies of rules; and, where hooks
are undone as they were done, that the path that was found takes the second link only where the
first one leads to no path that is accepted. -/
theorem order_of_repetitions (p : Parser) (text : List Char) (source : Option String) :
    (∀ (base graph : Graph) (e : Element) (m : Multiplicity),
      base.Contains e → (base.addRepeated m e).2.Grows graph →
      graph.Prefers (base.turn e m).node (base.turn e m).first (base.turn e m).second) ∧
    (∀ (arena graph : Graph) (body : Body) (stop : NodeId) (q q' : Piece) (m : Multiplicity),
      .part q ∈ body → Piece.Occurs (.repeated m q') q → (arena.addBody body stop).2 ≤ graph →
      ∃ parts g e base, q'.build parts g = (e, base) ∧ base.Contains e ∧
        (base.addRepeated m e).2.Grows graph) ∧
    (p.HooksRevert text source →
      ∀ (fuel : Nat) (s : Search), p.searchWithin fuel text source = some (.ok s) →
      ∀ (later els : List PathElement) (n m : NodeId) (t : Option Token) (e : PathElement),
        s.path.elements = later ++ ⟨n, t⟩ :: e :: els → s.graph.Prefers e.node m n →
        (s.graph.kind e.node).isPlain = true →
        Search.InVain p.grammar s.graph (Path.tokensOf (later ++ [⟨n, t⟩])) (e :: els) m) :=
  ⟨fun _ _ _ m he hgrows => Graph.prefers_addRepeated he m hgrows,
    fun _ _ _ _ _ _ _ hq hoccurs hle => Body.exists_addRepeated hq hoccurs hle,
    fun hooks _ _ h _ _ _ _ _ _ hels hprefers hplain =>
      inVain_of_searchWithin hooks h hels hprefers hplain⟩

end Parser

namespace Sample.Copies

/-- Any number of the word, and then once more. -/
def piece : Piece := .sequence [.many (.tokenAs Boundary.a "x"), .tokenAs Boundary.a "y"]

def parserOf (q : Piece) : Parser :=
  .ofGrammar
    { types := ⟨[Boundary.a]⟩, rules := [{ name := "copies", expand := some fun _ => .ofPiece q }],
      root := 0
      ident := none }

def text : List Char := "a".toList

def slot : Graph := ((Graph.ofRoot 0 none).add (.slot Boundary.a (some "x") none)).2

/-- The slot of the repetition could take the word, but nothing would be left for the one behind
it. -/
theorem order_of_repetitions_copies :
    ((slot.addRepeated .oneOrMore ⟨2, 2⟩).2.Prefers 2 4 2) ∧
    (∃ parts g e base, (Piece.tokenAs Boundary.a "x").build parts g = (e, base) ∧
      base.Contains e ∧
      (base.addRepeated .zeroOrMore e).2.Grows
        ((Graph.ofRoot 0 none).addBody (.ofPiece piece) 0).2) ∧
    ∃ s later t e els, (parserOf piece).searchWithin 100 text none = some (.ok s) ∧
      s.path.elements = later ++ ⟨6, t⟩ :: e :: els ∧
      Search.InVain (parserOf piece).grammar s.graph
        (Path.tokensOf (later ++ [⟨6, t⟩])) (e :: els) 4 := by
  have hooks : (parserOf piece).HooksRevert text none :=
    Parser.hooksRevert_of_revertsFrom 100 100 (by decide +kernel)
  have hfinds : ((parserOf piece).searchWithin 100 text none).any (·.toOption.any fun s =>
      s.path.elements.map (·.node) == [0, 3, 9, 7, 6, 5, 8, 2, 1] && s.graph.wired 5 == [4, 6] &&
        (s.graph.kind 5).isPlain) = true := by decide +kernel
  obtain ⟨s, hsearch, hs⟩ := Parser.exists_ok_of_any hfinds
  simp only [Bool.and_eq_true, beq_iff_eq] at hs
  obtain ⟨⟨hnodes, hwired⟩, hplain⟩ := hs
  obtain ⟨later, behind, helements, -, hbehind⟩ :=
    List.map_eq_append_iff.mp (hnodes.trans (List.append_cons [0, 3, 9] 7 [6, 5, 8, 2, 1]))
  obtain ⟨⟨_, t⟩, behind, rfl, rfl, hrest⟩ := List.map_eq_cons_iff.mp hbehind
  obtain ⟨e, els, rfl, he, -⟩ := List.map_eq_cons_iff.mp hrest
  obtain ⟨horder, hbody, hvain⟩ := Parser.order_of_repetitions (parserOf piece) text none
  refine ⟨?_, ?_, s, later, t, e, els, hsearch, helements, ?_⟩
  · exact horder slot _ ⟨2, 2⟩ .oneOrMore ⟨by decide, by decide, by decide⟩ (.refl _)
  · exact hbody _ _ (.ofPiece piece) 0 piece _ .zeroOrMore List.mem_cons_self
      (.sequence List.mem_cons_self .refl) (le_refl _)
  · exact hvain hooks 100 s hsearch later els 6 4 t e helements
      (he.symm ▸ ⟨[4], [], hwired, List.mem_singleton_self _, by decide⟩) (he.symm ▸ hplain)

/-- Where a slot is to be taken at least once, the link that leaves the repetition comes before the
one that takes the slot once more. -/
theorem leaves_first :
    ¬∀ (base graph : Graph) (e : Element) (m : Multiplicity) (u : NodeId), base.Contains e →
      (base.addRepeated m e).2.Grows graph → e.socket ∈ graph.wired u →
      (base.addRepeated m e).1.plug ∈ graph.wired u →
      graph.Prefers u e.socket (base.addRepeated m e).1.plug := by
  intro h
  have hprefers :=
    h slot _ ⟨2, 2⟩ .oneOrMore 2 ⟨by decide, by decide, by decide⟩ (.refl _) (by decide) (by decide)
  have hwired : (slot.addRepeated .oneOrMore ⟨2, 2⟩).2.wired 2 = [] ++ 4 :: [2] := by decide
  exact absurd (hprefers.mem hwired) List.not_mem_nil

/-- So the second word goes to what follows, although the repetition could have taken it. -/
example : ((parserOf (.sequence [.many1 (.tokenAs Boundary.a "x"),
      .many (.tokenAs Boundary.a "y")])).parseWithin 100 "a a".toList none).any
    (·.toOption.any (·.children.map (·.id) == ["x", "y"])) = true := by
  decide +kernel

end Sample.Copies

end GrammarGraph
