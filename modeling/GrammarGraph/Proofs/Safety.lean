import GrammarGraph.Proofs.Machine
import GrammarGraph.Proofs.Successors

/-!
# The arena is safe

Nodes are released where a descent fails and where a sibling is looked for, while numbers of nodes
are kept on the path, in lists that are being tried and in elements stepped back over.  What is kept
was there before the nodes that are released: the mark of a level is the size of an arena that has
all nodes kept outside the level (`Marked`).  So no number that is kept ever lacks its node, and the
node stays the same as long as its number is kept (`Parser.arena_safe`).
-/

namespace GrammarGraph

namespace Graph

variable {a b g : Graph} {id n : NodeId} {lo : Nat}

/-! ## Closed arenas -/

/-- All that nodes lead to, or name, is in the arena. -/
structure Closed (g : Graph) : Prop where
  two_le : 2 ≤ g.size
  links_lt : ∀ id, ∀ n ∈ (g.kind id).links, n < g.size
  wired_lt : ∀ id, ∀ n ∈ g.wired id, n < g.size

theorem closed_ofGrammar (g : Grammar) : (ofGrammar g).Closed where
  two_le := le_refl 2
  links_lt id n hn := by
    match id, hn with
    | 0, hn => exact absurd hn List.not_mem_nil
    | 1, hn =>
      obtain rfl := List.mem_singleton.mp hn
      exact Nat.zero_lt_succ 1
    | id + 2, hn =>
      rw [kind_of_size_le (Nat.le_add_left 2 id)] at hn
      exact absurd hn List.not_mem_nil
  wired_lt id n hn := by
    match id, hn with
    | 0, hn | 1, hn => exact absurd hn List.not_mem_nil
    | id + 2, hn =>
      rw [wired_of_size_le (Nat.le_add_left 2 id)] at hn
      exact absurd hn List.not_mem_nil

theorem Draws.closed (h : Draws lo a g) (ha : a.Closed) : g.Closed := by
  induction h with
  | refl => exact ha
  | @add g k _ hk ih =>
    refine ⟨le_trans ih.two_le (grown_add g k).size_le, fun id n hn => ?_, fun id n hn => ?_⟩
    · rw [kind_add] at hn
      split at hn
      · exact lt_of_lt_of_le (hk n hn) (grown_add g k).size_le
      · exact lt_of_lt_of_le (ih.links_lt id n hn) (grown_add g k).size_le
    · rw [wired_add] at hn
      exact lt_of_lt_of_le (ih.wired_lt id n hn) (grown_add g k).size_le
  | @connect g s t _ _ _ ht ih =>
    refine ⟨by rw [size_connect]; exact ih.two_le, fun id n hn => ?_, fun id n hn => ?_⟩
    · rw [kind_connect] at hn
      rw [size_connect]
      exact ih.links_lt id n hn
    · rw [size_connect]
      rcases mem_wired_connect hn with hn | ⟨-, rfl⟩
      · exact ih.wired_lt id n hn
      · exact ht

/-- Wiring a body draws links from its own nodes only, and to nothing but nodes of the arena. -/
theorem draws_addBody {stop : NodeId} (body : Body) (hstop : stop < a.size) :
    Draws a.size a (a.addBody body stop).2 := by
  obtain ⟨w, exit, heq, hw, hexit, -, -⟩ := addBody_eq_connect a body False.elim stop
  rw [heq]
  exact hw.draws.connect hexit.le hexit.lt (lt_of_lt_of_le hstop hw.le.1)

theorem mem_links_or_wired (h : n ∈ g.targets id) : n ∈ (g.kind id).links ∨ n ∈ g.wired id := by
  rw [targets] at h
  cases hk : g.kind id <;> rw [hk] at h
  case ruleStart => exact absurd h List.not_mem_nil
  case ruleEnd | slot | junction => exact .inr h
  case gate => exact .inl h
  case switch => exact .inl (List.mem_cons_of_mem _ h)

namespace Closed

theorem targets_lt (h : g.Closed) (hn : n ∈ g.targets id) : n < g.size :=
  (mem_links_or_wired hn).elim (h.links_lt id n) (h.wired_lt id n)

theorem stop_lt {rule : RuleId} {ident : Option String} {stop : NodeId} (h : g.Closed)
    (hk : g.kind id = .ruleStart rule ident stop) : stop < g.size :=
  h.links_lt id stop (by rw [hk]; exact List.mem_singleton_self stop)

end Closed

namespace Leaves

variable {grammar : Grammar} {ctx : Context} {next : List NodeId}

theorem closed (h : Leaves a grammar id ctx next b) (ha : a.Closed) : b.Closed := by
  cases h with
  | enter hk => exact (draws_addBody _ (ha.stop_lt hk)).closed ha
  | gate | switch | wired => exact ha

theorem lt_of_closed (h : Leaves a grammar id ctx next b) (ha : a.Closed) (hn : n ∈ next) :
    n < b.size := by
  rcases h.mem_targets_or_entry hn with ⟨hn, rfl⟩ | ⟨rfl, _, _, _, -, -, hbody⟩
  · exact ha.targets_lt hn
  · exact hbody.region.lt

end Leaves

/-! ## What is kept -/

variable {base : Graph} {els els' : List PathElement} {level : Level} {levels : List Level}
  {mark : Nat} {ns : List NodeId} {e : PathElement}

/-- The arena has the nodes of the elements. -/
structure Carries (g : Graph) (els : List PathElement) : Prop where
  closed : g.Closed
  lt_size : ∀ e ∈ els, e.node < g.size

theorem Carries.mono (h : g.Carries els) (hsub : els' ⊆ els) : g.Carries els' :=
  ⟨h.closed, fun e he => h.lt_size e (hsub he)⟩

theorem Carries.of_le (h : a.Carries els) (hle : a ≤ b) (hb : b.Closed) : b.Carries els :=
  ⟨hb, fun e he => lt_of_lt_of_le (h.lt_size e he) hle.1⟩

theorem Carries.cons (h : g.Carries els) (he : e.node < g.size) : g.Carries (e :: els) :=
  ⟨h.closed, List.forall_mem_cons.mpr ⟨he, h.lt_size⟩⟩

/-- The levels of a descent, with the path and the arena.  The nodes still to be tried at a level
are there, and the arena that its mark is the size of had all that the path and the older levels
kept when the level was entered. -/
inductive Marked : List Level → List PathElement → Graph → Prop
  | nil {els : List PathElement} {g : Graph} : g.Carries els → Marked [] els g
  | cons {base g : Graph} {ns : List NodeId} {levels : List Level} {tip : PathElement}
      {els : List PathElement} : g.Closed → base ≤ g → tip.node < g.size → (∀ n ∈ ns, n < g.size) →
        Marked levels els base → Marked (⟨base.size, ns⟩ :: levels) (tip :: els) g

/-- The innermost level in between two of its nodes, when the path is as it was
when the level was entered. -/
def Opened (level : Level) (levels : List Level) (els : List PathElement) (g : Graph) : Prop :=
  ∃ base ≤ g, level.mark = base.size ∧ g.Closed ∧ (∀ n ∈ level.next, n < g.size) ∧
    Marked levels els base

theorem Marked.carries (h : Marked levels els g) : g.Carries els := by
  induction h with
  | nil h => exact h
  | cons hg hle htip _ _ ih => exact (ih.of_le hle hg).cons htip

/-- What older levels keep is there still. -/
theorem Marked.next_lt (h : Marked levels els g) : ∀ n ∈ levels.flatMap (·.next), n < g.size := by
  induction h with
  | nil => exact fun n hn => absurd hn List.not_mem_nil
  | cons _ hle _ hns _ ih =>
    intro n hn
    rcases List.mem_append.mp hn with hn | hn
    · exact hns n hn
    · exact lt_of_lt_of_le (ih n hn) hle.1

theorem Marked.opened (h : Marked (level :: levels) els g) : Opened level levels els.tail g := by
  cases h with
  | cons hg hle _ hns hlevels => exact ⟨_, hle, rfl, hg, hns, hlevels⟩

namespace Opened

theorem carries (h : Opened level levels els g) : g.Carries els := by
  obtain ⟨base, hle, -, hg, -, hlevels⟩ := h
  exact hlevels.carries.of_le hle hg

theorem next_lt (h : Opened level levels els g) :
    ∀ n ∈ (level :: levels).flatMap (·.next), n < g.size := by
  obtain ⟨base, hle, -, -, hns, hlevels⟩ := h
  intro n hn
  rcases List.mem_append.mp hn with hn | hn
  · exact hns n hn
  · exact lt_of_lt_of_le (hlevels.next_lt n hn) hle.1

/-- A node need not be tried. -/
theorem skip {n : NodeId} (h : Opened ⟨mark, n :: ns⟩ levels els g) :
    Opened ⟨mark, ns⟩ levels els g := by
  obtain ⟨base, hle, hmark, hg, hns, hlevels⟩ := h
  exact ⟨base, hle, hmark, hg, fun m hm => hns m (List.mem_cons_of_mem n hm), hlevels⟩

theorem push {n : NodeId} (h : Opened ⟨mark, n :: ns⟩ levels els g) (token : Option Token) :
    Marked (⟨mark, ns⟩ :: levels) (⟨n, token⟩ :: els) g := by
  obtain ⟨base, hle, rfl, hg, hns, hlevels⟩ := h
  exact .cons hg hle (hns n List.mem_cons_self)
    (fun m hm => hns m (List.mem_cons_of_mem n hm)) hlevels

/-- To release what was wired since the level was entered gives the arena of that time back. -/
theorem truncate (h : Opened level levels els g) :
    Marked levels els (g.truncate level.mark) ∧ g.truncate level.mark ≤ g ∧
      (g.truncate level.mark).size = level.mark := by
  obtain ⟨base, hle, hmark, -, -, hlevels⟩ := h
  rw [hmark, truncate_of_le hle hlevels.carries.closed.two_le]
  exact ⟨hlevels, hle, rfl⟩

end Opened

/-- Leaving a node opens a level. -/
theorem Marked.leave {tip : NodeId} {grammar : Grammar} {ctx : Context} {next : List NodeId}
    (h : Marked levels els a) (hleaves : a.Leaves grammar tip ctx next b) :
    Opened ⟨a.size, next⟩ levels els b :=
  ⟨a, hleaves.le, rfl, hleaves.closed h.carries.closed,
    fun _ hn => hleaves.lt_of_closed h.carries.closed hn, h⟩

/-- A node that cannot be left opens a level without nodes. -/
theorem Marked.stay (h : Marked levels els g) : Opened ⟨g.size, []⟩ levels els g :=
  ⟨g, le_refl g, rfl, h.carries.closed, nofun, h⟩

end Graph

namespace Moment

open GrammarGraph.Graph

variable {p : Parser} {m m' : Moment}

def graph (m : Moment) : Graph := m.run.search.graph

/-- The numbers of nodes that are kept: on the path, in the lists of nodes to be tried, in the
elements off the path. -/
def held (m : Moment) : List NodeId :=
  m.run.search.path.elements.map (·.node) ++
    match m.task with
    | .fetch => []
    | .descend levels | .giveUp levels => levels.flatMap (·.next)
    | .tryNext level levels => (level :: levels).flatMap (·.next)
    | .backtrack removed | .stepBack removed | .restore removed => removed.map (·.node)
    | .switch e removed => (e :: removed).map (·.node)
    | .choose e level removed => (e :: removed).map (·.node) ++ level.next

/-- What is kept has its nodes, and will have them when marks are returned to. -/
def Safe (m : Moment) : Prop :=
  match m.task with
  | .fetch => m.graph.Carries m.run.search.path.elements
  | .descend levels | .giveUp levels => Marked levels m.run.search.path.elements m.graph
  | .tryNext level levels => Opened level levels m.run.search.path.elements m.graph
  | .backtrack removed | .stepBack removed | .restore removed =>
    m.graph.Carries (removed ++ m.run.search.path.elements)
  | .switch e removed => m.graph.Carries (e :: removed ++ m.run.search.path.elements)
  | .choose e level removed => Opened level [] (e :: removed ++ m.run.search.path.elements) m.graph

theorem Safe.carries (h : m.Safe) : m.graph.Carries m.run.search.path.elements := by
  obtain ⟨r, task⟩ := m
  cases task with
  | fetch => exact h
  | descend | giveUp => exact Marked.carries h
  | tryNext => exact Opened.carries h
  | backtrack | stepBack | restore | switch => exact Carries.mono h (List.subset_append_right _ _)
  | choose => exact (Opened.carries h).mono (List.subset_append_right _ _)

theorem Safe.held_lt (h : m.Safe) : ∀ id ∈ m.held, id < m.graph.size := by
  have hpath : ∀ id ∈ m.run.search.path.elements.map (·.node), id < m.graph.size :=
    List.forall_mem_map.mpr h.carries.lt_size
  obtain ⟨r, task⟩ := m
  refine List.forall_mem_append.mpr ⟨hpath, ?_⟩
  cases task with
  | fetch => exact fun id hid => absurd hid List.not_mem_nil
  | descend | giveUp => exact Marked.next_lt h
  | tryNext => exact Opened.next_lt h
  | backtrack | stepBack | restore | switch =>
    exact List.forall_mem_map.mpr (Carries.mono h (List.subset_append_left _ _)).lt_size
  | choose e level removed =>
    refine List.forall_mem_append.mpr
      ⟨?_, fun id hid => Opened.next_lt h id (List.mem_append_left _ hid)⟩
    exact List.forall_mem_map.mpr ((Opened.carries h).mono (List.subset_append_left _ _)).lt_size

end Moment

/-! ## Steps -/

namespace Progress

/-- A step has led on to a safe moment, or to a path that the arena carries, and the arena has only
grown or only shrunk. -/
def Keeps (g : Graph) : Progress → Prop
  | .goOn m => m.Safe ∧ (g ≤ m.graph ∨ m.graph ≤ g)
  | .stop (.ok s) => s.graph.Carries s.path.elements ∧ g ≤ s.graph
  | .stop (.error _) => True

end Progress

namespace Run

open GrammarGraph.Graph

variable {p : Parser} {r : Run} {g : Graph} {levels : List Level} {removed : List PathElement}

theorem keeps_arrive {s : Search} (hs : s.graph.Carries s.path.elements) (hle : g ≤ s.graph) :
    (r.arrive s).Keeps g := by
  rw [arrive]
  split
  · exact ⟨hs, hle⟩
  · exact ⟨hs, .inl hle⟩

theorem keeps_leaveTip (tip : PathElement)
    (h : Marked levels r.search.path.elements r.search.graph) :
    (r.leaveTip p tip levels).Keeps r.search.graph := by
  rw [leaveTip]
  split
  · next graph hsucc =>
    obtain rfl := Graph.successors_none hsucc
    have htruncate := Graph.truncate_of_le (le_refl r.search.graph) h.carries.closed.two_le
    rw [htruncate]
    exact ⟨h, .inl (le_refl _)⟩
  · next next graph hsucc =>
    have hleaves := Graph.leaves_of_successors hsucc
    split
    · exact keeps_arrive (h.carries.of_le hleaves.le (hleaves.closed h.carries.closed)) hleaves.le
    · exact ⟨h.leave hleaves, .inl hleaves.le⟩

theorem keeps_descendTip (h : Marked levels r.search.path.elements r.search.graph) :
    (r.descendTip p levels).Keeps r.search.graph := by
  rw [descendTip]
  split
  · exact ⟨h, .inl (le_refl _)⟩
  · next tip ht =>
    split
    · split
      · refine keeps_arrive ?_ (le_refl _)
        obtain ⟨rest, hels⟩ := Search.exists_rest ht
        have hcarries := h.carries
        rw [hels] at hcarries
        rw [Search.elements_push, Search.elements_pop, hels]
        exact (hcarries.mono (List.subset_cons_self _ _)).cons
          (hcarries.lt_size tip List.mem_cons_self)
      · exact ⟨h, .inl (le_refl _)⟩
    · exact keeps_leaveTip tip h

theorem keeps_tryLevel (level : Level)
    (h : Opened level levels r.search.path.elements r.search.graph) :
    (r.tryLevel p levels level).Keeps r.search.graph := by
  obtain ⟨mark, _ | ⟨n, ns⟩⟩ := level
  · obtain ⟨hlevels, hle, -⟩ := h.truncate
    exact ⟨hlevels, .inr hle⟩
  · rw [tryLevel]
    split
    · exact ⟨h.skip, .inl (le_refl _)⟩
    · exact ⟨h.push none, .inl (le_refl _)⟩

/-- The tip has left the path, and is kept off it. -/
theorem carries_pop {e : PathElement} {s : Search} (he : s.path.tip? = some e)
    (h : s.graph.Carries (removed ++ s.path.elements)) :
    s.graph.Carries (e :: removed ++ s.pop.path.elements) := by
  obtain ⟨rest, hels⟩ := Search.exists_rest he
  rw [hels] at h
  rw [Search.elements_pop, hels]
  exact h.mono List.perm_middle.symm.subset

theorem keeps_backtrackTip (h : r.search.graph.Carries (removed ++ r.search.path.elements)) :
    (r.backtrackTip removed).Keeps r.search.graph := by
  rw [backtrackTip]
  split
  · exact ⟨h, .inl (le_refl _)⟩
  · split
    · exact ⟨h, .inl (le_refl _)⟩
    · next e he => exact ⟨carries_pop he h, .inl (le_refl _)⟩

theorem keeps_leaveParent (e : PathElement)
    (h : r.search.graph.Carries (e :: removed ++ r.search.path.elements)) :
    (r.leaveParent p e removed).Keeps r.search.graph := by
  rw [leaveParent]
  split
  · refine ⟨?_, .inl (le_refl _)⟩
    exact h.mono List.perm_middle.subset
  · next parent hparent =>
    rcases hsucc : r.search.graph.successors p.grammar parent.node
      ⟨r.search.path, e.token⟩ with ⟨_ | next, graph⟩
    · obtain rfl := Graph.successors_none hsucc
      exact ⟨Marked.stay (.nil h), .inl (le_refl _)⟩
    · have hleaves := Graph.leaves_of_successors hsucc
      exact ⟨Marked.leave (.nil h) hleaves, .inl hleaves.le⟩

/-- What was wired to find the siblings is released, unless the sibling is part of it. -/
theorem keeps_chooseSibling (e : PathElement) (level : Level)
    (h : Opened level [] (e :: removed ++ r.search.path.elements) r.search.graph) :
    (r.chooseSibling p e level removed).Keeps r.search.graph := by
  obtain ⟨hmarked, hle, hsize⟩ := h.truncate
  rw [chooseSibling]
  split
  · next n hn =>
    have hmem : n ∈ level.next :=
      (List.dropWhile_sublist _).mem (List.mem_of_mem_tail (List.mem_of_find?_eq_some hn))
    have hpath := List.subset_append_right (e :: removed) r.search.path.elements
    split
    · next hlt => exact ⟨(hmarked.carries.mono hpath).cons (by rw [hsize]; exact hlt), .inr hle⟩
    · exact ⟨(h.carries.mono hpath).cons (h.next_lt n (List.mem_append_left _ hmem)),
        .inl (le_refl _)⟩
  · exact ⟨hmarked.carries.mono List.perm_middle.subset, .inr hle⟩

theorem keeps_stepBackTip (h : r.search.graph.Carries (removed ++ r.search.path.elements)) :
    (r.stepBackTip p removed).Keeps r.search.graph := by
  rw [stepBackTip]
  split
  · exact ⟨h, .inl (le_refl _)⟩
  · cases ht : r.search.path.tip? with
    | none =>
      simp only [Search.stepBack, ht]
      exact ⟨h, .inl (le_refl _)⟩
    | some e =>
      simp only [Search.stepBack, ht]
      exact ⟨carries_pop ht h, .inl (le_refl _)⟩

end Run

namespace Moment

open GrammarGraph.Graph

variable {p : Parser} {m m' : Moment} {id : NodeId}

/-- One step. -/
theorem Safe.next (h : m.Safe) (p : Parser) : (m.next p).Keeps m.graph := by
  obtain ⟨r, task⟩ := m
  cases task with
  | fetch =>
    rw [Moment.next]
    split
    · trivial
    · next r' hf =>
      have hsearch := Run.search_fetch hf
      refine ⟨Marked.nil ?_, .inl (le_of_eq ?_)⟩
      · show r'.search.graph.Carries r'.search.path.elements
        rw [hsearch]
        exact h
      · rw [graph, graph, hsearch]
  | descend levels => exact Run.keeps_descendTip h
  | tryNext level levels => exact Run.keeps_tryLevel level h
  | giveUp levels =>
    cases levels with
    | nil => exact ⟨Marked.carries h, .inl (le_refl _)⟩
    | cons level levels =>
      have hopened := Marked.opened h
      rw [← Search.elements_pop] at hopened
      exact ⟨hopened, .inl (le_refl _)⟩
  | backtrack removed => exact Run.keeps_backtrackTip h
  | switch e removed => exact Run.keeps_leaveParent e h
  | choose e level removed => exact Run.keeps_chooseSibling e level h
  | stepBack removed => exact Run.keeps_stepBackTip h
  | restore removed =>
    cases removed with
    | nil => trivial
    | cons e removed => exact ⟨Carries.mono h List.perm_middle.subset, .inl (le_refl _)⟩

theorem Safe.then (h : m.Safe) (hthen : Then p m m') :
    m'.Safe ∧ (m.graph ≤ m'.graph ∨ m'.graph ≤ m.graph) := by
  have hkeeps := h.next p
  rwa [hthen] at hkeeps

/-- A number that is kept in a step is the number of the same node before and after it. -/
theorem Safe.node_eq (h : m.Safe) (hthen : Then p m m') (hid : id ∈ m.held) (hid' : id ∈ m'.held) :
    m'.graph.nodes[id]? = m.graph.nodes[id]? := by
  obtain ⟨h', hle | hle⟩ := h.then hthen
  · exact hle.2 id (h.held_lt id hid)
  · exact (hle.2 id (h'.held_lt id hid')).symm

/-- One moment comes some time after another, and the number is kept all along. -/
def Holds (p : Parser) (id : NodeId) : Moment → Moment → Prop :=
  Relation.ReflTransGen fun m m' => Then p m m' ∧ id ∈ m.held ∧ id ∈ m'.held

theorem Safe.holds (h : m.Safe) (hholds : m.Holds p id m') :
    m'.Safe ∧ m'.graph.nodes[id]? = m.graph.nodes[id]? := by
  induction hholds with
  | refl => exact ⟨h, rfl⟩
  | tail _ hlast ih =>
    obtain ⟨hthen, hid, hid'⟩ := hlast
    exact ⟨(ih.1.then hthen).1, (ih.1.node_eq hthen hid hid').trans ih.2⟩

/-- All that is kept, and all that the nodes of the arena lead to or name, has its node.  A body
that is wired for a rule start is linked to nothing else. -/
structure InRange (m : Moment) : Prop where
  held_lt : ∀ id ∈ m.held, id < m.graph.size
  links_lt : ∀ id, ∀ n ∈ (m.graph.kind id).links, n < m.graph.size
  wired_lt : ∀ id, ∀ n ∈ m.graph.wired id, n < m.graph.size
  draws : ∀ id rule ident stop, m.graph.kind id = .ruleStart rule ident stop →
    ∀ body : Body, Draws m.graph.size m.graph (m.graph.addBody body stop).2

theorem Safe.inRange (h : m.Safe) : m.InRange where
  held_lt := h.held_lt
  links_lt := h.carries.closed.links_lt
  wired_lt := h.carries.closed.wired_lt
  draws _ _ _ _ hk body := draws_addBody body (h.carries.closed.stop_lt hk)

end Moment

namespace Parser

variable {p : Parser} {text : List Char} {source : Option String} {m : Moment}

theorem safe_start (p : Parser) (text : List Char) (source : Option String) :
    Moment.Safe ⟨p.start text source, .fetch⟩ :=
  have hstart := Search.valid_start p.grammar
  ⟨Graph.closed_ofGrammar p.grammar, hstart.lt_size⟩

theorem Occurs.safe (h : p.Occurs text source m) : m.Safe := by
  induction h with
  | refl => exact safe_start p text source
  | tail _ hthen ih => exact (ih.then hthen).1

/-- A search comes to its answer through moments in which all that it keeps is in the arena.  While
a number is kept it is the number of the same node, up to the path that is found. -/
theorem arena_safe (p : Parser) (text : List Char) (source : Option String) :
    (∀ fuel answer, p.searchWithin fuel text source = some answer →
      ∃ m, p.Occurs text source m ∧ m.next p = .stop answer) ∧
    ∀ m, p.Occurs text source m →
      m.InRange ∧
      (∀ id m', m.Holds p id m' → m'.graph.nodes[id]? = m.graph.nodes[id]?) ∧
      ∀ s, m.next p = .stop (.ok s) → m.graph ≤ s.graph ∧
      ∀ e ∈ s.path.elements, e.node < s.graph.size := by
  refine ⟨fun _ _ => stops_of_searchWithin,
    fun m hm => ⟨hm.safe.inRange, fun _ _ => fun h => (hm.safe.holds h).2, ?_⟩⟩
  intro s hstop
  have hkeeps := hm.safe.next p
  rw [hstop] at hkeeps
  exact ⟨hkeeps.2, hkeeps.1.lt_size⟩

end Parser

end GrammarGraph
