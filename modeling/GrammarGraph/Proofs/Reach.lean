import GrammarGraph.Parser
import GrammarGraph.Proofs.Backtrack
import GrammarGraph.Proofs.Descent
import Mathlib.Logic.Relation

/-!
# The states of a search

* `Run.Goes`: what one iteration does to a search for which a token has been read.
* `Parser.Reaches`: the states at the head of the loop.
* `Search.Valid`: what holds of the arena and the path in all of them.
-/

namespace GrammarGraph

namespace Search

variable {g : Grammar} {full : Bool} {s s' : Search} {token : Option Token} {graph : Graph}
  {els els' : List PathElement} {pending pending' : List Token}

/-- The path starts at the start of the root rule and keeps to the arena. -/
structure Valid (g : Grammar) (s : Search) : Prop where
  base : .ofGrammar g ≤ s.graph
  wellFormed : s.graph.WellFormed
  lt_size : ∀ e ∈ s.path.elements, e.node < s.graph.size
  root : s.path.elements.getLast? = some ⟨Graph.root, none⟩

theorem valid_start (g : Grammar) : (start g).Valid g where
  base := le_refl (Graph.ofGrammar g)
  wellFormed := Graph.wellFormed_ofGrammar g
  lt_size e he := by
    obtain rfl := List.mem_singleton.mp he
    exact Nat.lt_succ_self 1
  root := rfl

theorem isReplay_start (g : Grammar) : (start g).IsReplay g := rfl

namespace Valid

theorem two_le (h : s.Valid g) : 2 ≤ s.graph.size := h.wellFormed.two_le

theorem kind_root (h : s.Valid g) : s.graph.kind Graph.root = .ruleStart g.root g.ident 0 :=
  Graph.kind_of_le h.base (Nat.lt_succ_self 1)

theorem elements_ne_nil (h : s.Valid g) : s.path.elements ≠ [] := by
  intro hnil
  have hroot := h.root
  rw [hnil] at hroot
  exact absurd hroot (by simp)

theorem exists_tip (h : s.Valid g) : ∃ tip rest, s.path.elements = tip :: rest :=
  List.exists_cons_of_ne_nil h.elements_ne_nil

/-- Stepping from the tip onto one of its successors. -/
theorem push {tip : PathElement} {next : List NodeId} {n : NodeId} (h : s.Valid g)
    (hsucc : s.graph.successors g tip.node ⟨s.path, token⟩ = (some next, graph)) (hn : n ∈ next) :
    (Search.push g { s with graph } n none).Valid g where
  base := le_trans h.base (Graph.leaves_of_successors hsucc).le
  wellFormed := (Graph.leaves_of_successors hsucc).wellFormed h.wellFormed
  lt_size e he := by
    rcases List.mem_cons.mp he with rfl | he
    · exact (Graph.leaves_of_successors hsucc).lt_size h.wellFormed hn
    · exact lt_of_lt_of_le (h.lt_size e he) (Graph.leaves_of_successors hsucc).le.1
  root := by
    obtain ⟨tip, rest, hels⟩ := h.exists_tip
    have hroot := h.root
    rw [elements_push, hels] at *
    rwa [List.getLast?_cons_cons]

/-- The slot at the tip takes a token. -/
theorem take {tip : PathElement} {type : TokenType} (h : s.Valid g) (ht : s.path.tip? = some tip)
    (he : s.expected? = some type) (token : Option Token) :
    (s.pop.push g tip.node token).Valid g where
  base := h.base
  wellFormed := h.wellFormed
  lt_size e hmem := by
    obtain ⟨rest, hels⟩ := exists_rest ht
    have hlt := h.lt_size
    rw [elements_push, elements_pop, hels, List.tail_cons] at hmem
    rw [hels] at hlt
    rcases List.mem_cons.mp hmem with rfl | hmem
    · exact hlt tip List.mem_cons_self
    · exact hlt e (List.mem_cons_of_mem _ hmem)
  root := by
    obtain ⟨rest, hels⟩ := exists_rest ht
    have hroot := h.root
    rw [elements_push, elements_pop, hels, List.tail_cons]
    rw [hels] at hroot
    cases rest with
    | nil =>
      -- The root is the start of a rule and not a slot.
      obtain ⟨-, ident, hook, hk⟩ := isSlot_of_expected? ht he
      obtain rfl := Option.some.inj hroot
      rw [h.kind_root] at hk
      exact absurd hk (by simp)
    | cons parent rest => rwa [List.getLast?_cons_cons] at hroot ⊢

end Valid

theorem Arrives.valid (h : Arrives g token s s') (hs : s.Valid g) : s'.Valid g := by
  induction h with
  | taken ht he => exact hs.take ht he token
  | complete ht he hsucc =>
    have hleaves := Graph.leaves_of_successors hsucc
    exact ⟨le_trans hs.base hleaves.le, hleaves.wellFormed hs.wellFormed,
      fun e he => lt_of_lt_of_le (hs.lt_size e he) hleaves.le.1, hs.root⟩
  | step ht he hsucc _ _ _ ih =>
    exact ih (hs.push hsucc (List.mem_append_right _ List.mem_cons_self))

/-- A descent leaves the arena as it was, but for what leaving nodes wires. -/
theorem Arrives.arena {P : Graph → Prop}
    (leaves : ∀ a id ctx next b, Graph.Leaves a g id ctx next b → a.WellFormed → P a → P b)
    (h : Arrives g token s s') (hs : s.Valid g) (hP : P s.graph) : P s'.graph := by
  induction h with
  | taken => exact hP
  | complete _ _ hsucc => exact leaves _ _ _ _ _ (Graph.leaves_of_successors hsucc) hs.wellFormed hP
  | step _ _ hsucc _ _ _ ih =>
    refine ih (hs.push hsucc (List.mem_append_right _ List.mem_cons_self)) ?_
    exact leaves _ _ _ _ _ (Graph.leaves_of_successors hsucc) hs.wellFormed hP

theorem Arrives.graph_le (h : Arrives g token s s') (hs : s.Valid g) : s.graph ≤ s'.graph :=
  h.arena (P := (s.graph ≤ ·)) (fun _ _ _ _ _ hleaves _ hle => le_trans hle hleaves.le) hs
    (le_refl s.graph)

/-- An alternative exists only behind a parent. -/
theorem exists_parent {e : PathElement} {rest : List PathElement} {n : NodeId}
    (h : graph.alternative? (e :: rest) = some n) :
    ∃ parent rest', rest = parent :: rest' ∧ n ∈ graph.later parent.node e.node := by
  cases rest with
  | nil => exact absurd h (by simp [Graph.alternative?])
  | cons parent rest => exact ⟨parent, rest, rfl, List.mem_of_find?_eq_some h⟩

namespace Retreats

theorem ne_nil (h : Retreats graph full els pending els' pending') : els ≠ [] := by
  cases h <;> exact List.cons_ne_nil _ _

theorem lt_size (h : Retreats graph full els pending els' pending') (hg : graph.WellFormed)
    (hels : ∀ e ∈ els, e.node < graph.size) : ∀ e ∈ els', e.node < graph.size := by
  induction h with
  | switch halt =>
    obtain ⟨parent, rest', rfl, hn⟩ := exists_parent halt
    rintro e he
    rcases List.mem_cons.mp he with rfl | he
    · exact hg.targets_lt _ _ (Graph.mem_targets_of_mem_later hn)
    · exact hels e (List.mem_cons_of_mem _ he)
  | back _ _ _ ih => exact ih fun e he => hels e (List.mem_cons_of_mem _ he)

theorem getLast?_eq (h : Retreats graph full els pending els' pending') :
    els'.getLast? = els.getLast? := by
  induction h with
  | switch halt =>
    obtain ⟨parent, rest', rfl, -⟩ := exists_parent halt
    rw [List.getLast?_cons_cons, List.getLast?_cons_cons]
  | back _ _ hrest ih =>
    obtain ⟨e, rest, rfl⟩ := List.exists_cons_of_ne_nil hrest.ne_nil
    rw [ih, List.getLast?_cons_cons]

theorem valid (h : Retreats s.graph full s.path.elements pending s'.path.elements pending')
    (hs : s.Valid g) (hgraph : s'.graph = s.graph) : s'.Valid g where
  base := hgraph ▸ hs.base
  wellFormed := hgraph ▸ hs.wellFormed
  lt_size := by
    rw [hgraph]
    exact h.lt_size hs.wellFormed hs.lt_size
  root := h.getLast?_eq.trans hs.root

end Retreats

/-! ## What single steps keep -/

/-- The steps of a search, one at a time, keep a property of the arena and the elements of the
path. -/
structure Keeps (g : Grammar) (P : Graph → List PathElement → Prop) : Prop where
  /-- Leaving the tip wires what it leads to. -/
  wire : ∀ {a b tip els ctx next}, P a (tip :: els) → a.Leaves g tip.node ctx next b →
    P b (tip :: els)
  /-- A step onto one of the nodes that the tip leads to. -/
  step : ∀ {a b tip els ctx next n}, P a (tip :: els) → a.Leaves g tip.node ctx next b → n ∈ next →
    P b (⟨n, none⟩ :: tip :: els)
  /-- The slot at the tip takes a token. -/
  take : ∀ {a n els type ident hook} (t : Token), P a (⟨n, none⟩ :: els) →
    a.kind n = .slot type ident hook → P a (⟨n, some t⟩ :: els)
  /-- The tip is stepped back from. -/
  pop : ∀ {a e els}, P a (e :: els) → els ≠ [] → P a els

namespace Keeps

variable {P : Graph → List PathElement → Prop}

theorem arrives (hP : Keeps g P) (h : Arrives g token s s') (hs : P s.graph s.path.elements) :
    P s'.graph s'.path.elements := by
  induction h with
  | @taken s tip type ht he hany =>
    obtain ⟨t, rfl, -⟩ := (Option.any_eq_true _ _).mp hany
    obtain ⟨rest, hels⟩ := exists_rest ht
    obtain ⟨hnone, ident, hook, hk⟩ := isSlot_of_expected? ht he
    obtain ⟨n, _⟩ := tip
    subst hnone
    rw [elements_push, elements_pop, hels, List.tail_cons]
    rw [hels] at hs
    exact hP.take t hs hk
  | complete ht _ hsucc =>
    obtain ⟨rest, hels⟩ := exists_rest ht
    rw [hels] at hs
    have hwired := hP.wire hs (Graph.leaves_of_successors hsucc)
    rwa [← hels] at hwired
  | step ht _ hsucc _ _ _ ih =>
    obtain ⟨rest, hels⟩ := exists_rest ht
    apply ih
    rw [elements_push, hels]
    rw [hels] at hs
    exact hP.step hs (Graph.leaves_of_successors hsucc) (List.mem_append_right _ List.mem_cons_self)

theorem retreats (hP : Keeps g P) (h : Retreats graph full els pending els' pending')
    (hels : P graph els) : P graph els' := by
  induction h with
  | switch halt =>
    obtain ⟨parent, rest, rfl, hn⟩ := exists_parent halt
    obtain ⟨next, hsucc, hmem⟩ := Graph.exists_successors_of_mem_later hn g ⟨{}, none⟩
    exact hP.step (hP.pop hels (List.cons_ne_nil _ _)) (Graph.leaves_of_successors hsucc) hmem
  | back _ _ hrest ih => exact ih (hP.pop hels hrest.ne_nil)

end Keeps

end Search

namespace Run

variable {g : Grammar} {lx : Lexer} {full : Bool} {levels : Nat} {r r' : Run} {s : Search}

/-- What one iteration does where it goes on: the next token is taken, or the search steps back. -/
inductive Goes (g : Grammar) (full : Bool) (r : Run) : Run → Prop
  | taken {t : Token} {rest : List Token} {s : Search} : r.pending = t :: rest →
      r.search.Arrives g (some t) s → Goes g full r { r with search := s, pending := rest }
  | retreated {s : Search} {pending : List Token} : r.search.Fails g r.pending.head? →
      r.search.backtrack g full r.pending = (true, s, pending) →
      Goes g full r { r with search := s, pending }

theorem fetch_ok (h : r.fetch lx = .ok r') : (r.pending ≠ [] ∧ r' = r) ∨
    (r.pending = [] ∧ ∃ o stream, r.stream.next lx = (.ok o, stream) ∧
      r' = { r with stream, pending := o.toList }) := by
  unfold fetch at h
  cases hp : r.pending with
  | cons t rest =>
    rw [hp] at h
    exact .inl ⟨List.cons_ne_nil _ _, (Except.ok.inj h).symm⟩
  | nil =>
    rw [hp] at h
    refine .inr ⟨rfl, ?_⟩
    rcases hnext : r.stream.next lx with ⟨_ | _ | t, stream⟩ <;> rw [hnext] at h
    · exact absurd h (by simp)
    · obtain rfl := Except.ok.inj h
      refine ⟨none, stream, rfl, ?_⟩
      simp
    · exact ⟨some t, stream, rfl, (Except.ok.inj h).symm⟩

theorem fetch_error {e : ParseError} (h : r.fetch lx = .error e) :
    ∃ stream, r.stream.next lx = (.error e, stream) := by
  unfold fetch at h
  split at h
  · exact absurd h (by simp)
  · split at h
    · next e' stream hnext =>
      obtain rfl := Except.error.inj h
      exact ⟨stream, hnext⟩
    · exact absurd h (by simp)
    · exact absurd h (by simp)

theorem search_fetch (h : r.fetch lx = .ok r') : r'.search = r.search := by
  rcases fetch_ok h with ⟨-, rfl⟩ | ⟨-, _, _, -, rfl⟩ <;> rfl

/-- One iteration in terms of the descent for the next token. -/
theorem step_eq (g : Grammar) (full : Bool) (h : r.fetch lx = .ok r') :
    ∃ e, ∀ levels,
      r.step g lx full levels = match Search.descendFor g r'.pending.head? levels r'.search with
      | none => none
      | some (true, s) =>
        match r'.pending with
        | [] => some (.done s)
        | _ :: rest => some (.goOn { r' with search := s, pending := rest })
      | some (false, s) => some (retreat g full { r' with search := s } e) := by
  cases hp : r'.pending with
  | nil =>
    refine ⟨.unexpectedEnd ⟨r'.stream.source, r'.stream.position⟩, ?_⟩
    intro levels
    rcases hdescend : r'.search.descendToEnd g levels with _ | ⟨_ | _, s⟩ <;>
      simp only [step, h, hp, List.head?_nil, Search.descendFor, hdescend]
  | cons t rest =>
    refine ⟨.unexpectedToken ((t :: rest).getLast (List.cons_ne_nil t rest)).text
      ⟨r'.stream.source, ((t :: rest).getLast (List.cons_ne_nil t rest)).start⟩, fun levels => ?_⟩
    rcases hdescend : r'.search.descend g t levels with _ | ⟨_ | _, s⟩ <;>
      simp only [step, h, hp, List.head?_cons, Search.descendFor, hdescend]

/-- The outcome of an iteration does not depend on how many levels it had, as
long as there were enough. -/
theorem step_mono {levels' : Nat} {o : Outcome} (hle : levels ≤ levels')
    (h : r.step g lx full levels = some o) : r.step g lx full levels' = some o := by
  cases hf : r.fetch lx with
  | error e =>
    rw [step, hf] at h ⊢
    exact h
  | ok t =>
    obtain ⟨e, hstep⟩ := step_eq g full hf
    rw [hstep] at h ⊢
    cases hdescend : t.search.descendFor g t.pending.head? levels with
    | none =>
      rw [hdescend] at h
      exact absurd h (by simp)
    | some result =>
      rw [Search.descendFor_mono hle hdescend]
      rw [hdescend] at h
      exact h

theorem step_unique {levels' : Nat} {o o' : Outcome} (h : r.step g lx full levels = some o)
    (h' : r.step g lx full levels' = some o') : o = o' := by
  rcases le_total levels levels' with hle | hle
  · exact Option.some.inj ((step_mono hle h).symm.trans h')
  · exact Option.some.inj (h.symm.trans (step_mono hle h'))

/-- Nor does the answer of a run. -/
theorem iterate_mono {result : Except ParseError Search} {levels' fuel fuel' : Nat}
    (hlevels : levels ≤ levels') (hfuel : fuel ≤ fuel')
    (h : r.iterate g lx full levels fuel = some result) :
    r.iterate g lx full levels' fuel' = some result := by
  induction fuel generalizing r fuel' with
  | zero => exact absurd h (by simp [iterate])
  | succ fuel ih =>
    obtain ⟨fuel', rfl⟩ := Nat.exists_eq_add_one_of_ne_zero (Nat.ne_zero_of_lt hfuel)
    rw [iterate] at h ⊢
    cases hstep : r.step g lx full levels with
    | none =>
      rw [hstep] at h
      exact absurd h (by simp)
    | some o =>
      rw [step_mono hlevels hstep]
      rw [hstep] at h
      cases o with
      | done | failed => exact h
      | goOn r' => exact ih (Nat.le_of_succ_le_succ hfuel) h

theorem exists_fetch (h : r.step g lx full levels = some (.goOn r')) : ∃ t, r.fetch lx = .ok t := by
  cases hf : r.fetch lx with
  | error e =>
    rw [step, hf] at h
    exact absurd h (by simp)
  | ok t => exact ⟨t, rfl⟩

theorem goes_of_step (hs : 2 ≤ r.search.graph.size)
    (h : r.step g lx full levels = some (.goOn r')) :
    ∃ t, r.fetch lx = .ok t ∧ Goes g full t r' := by
  obtain ⟨t, hf⟩ := exists_fetch h
  refine ⟨t, hf, ?_⟩
  obtain ⟨e, hstep⟩ := step_eq g full hf
  rw [← search_fetch hf] at hs
  rw [hstep] at h
  rcases hdescend : t.search.descendFor g t.pending.head? levels with _ | ⟨_ | _, s⟩ <;>
    rw [hdescend] at h
  · exact absurd h (by simp)
  · obtain ⟨rfl, hfails⟩ := Search.failsInPlace_descendFor g _ levels _ s hs hdescend
    simp only [retreat] at h
    rcases hback : t.search.backtrack g full t.pending with ⟨_ | _, s, pending⟩ <;> rw [hback] at h
    · exact absurd h (by simp)
    · obtain rfl : { t with search := s, pending } = r' := by simpa using h
      exact .retreated hfails hback
  · have harrives := Search.arrives_of_descendFor hs hdescend
    cases hp : t.pending with
    | nil =>
      rw [hp] at h
      exact absurd h (by simp)
    | cons token rest =>
      rw [hp] at h harrives
      obtain rfl : { t with search := s, pending := rest } = r' := by simpa using h
      exact .taken hp harrives

/-- The search is done where no token is left and the descent to the end arrives. -/
theorem arrives_of_step (hs : 2 ≤ r.search.graph.size)
    (h : r.step g lx full levels = some (.done s)) :
    ∃ t, r.fetch lx = .ok t ∧ t.pending = [] ∧ t.search.Arrives g none s := by
  cases hf : r.fetch lx with
  | error e =>
    rw [step, hf] at h
    exact absurd h (by simp)
  | ok t =>
    refine ⟨t, rfl, ?_⟩
    obtain ⟨e, hstep⟩ := step_eq g full hf
    rw [← search_fetch hf] at hs
    rw [hstep] at h
    rcases hdescend : t.search.descendFor g t.pending.head? levels with _ | ⟨_ | _, s'⟩ <;>
      rw [hdescend] at h
    · exact absurd h (by simp)
    · simp only [retreat] at h
      split at h <;> exact absurd h (by simp)
    · have harrives := Search.arrives_of_descendFor hs hdescend
      cases hp : t.pending with
      | nil =>
        rw [hp] at h harrives
        obtain rfl : s' = s := by simpa using h
        exact ⟨rfl, harrives⟩
      | cons token rest =>
        rw [hp] at h
        exact absurd h (by simp)

/-- The search fails where neither the descent arrives nor an alternative is left. -/
theorem fails_of_step {e : ParseError} {t : Run} (hs : 2 ≤ r.search.graph.size)
    (hf : r.fetch lx = .ok t) (h : r.step g lx full levels = some (.failed e)) :
    t.search.Fails g t.pending.head? ∧ (t.search.backtrack g full t.pending).1 = false := by
  obtain ⟨e', hstep⟩ := step_eq g full hf
  rw [← search_fetch hf] at hs
  rw [hstep] at h
  rcases hdescend : t.search.descendFor g t.pending.head? levels with _ | ⟨_ | _, s'⟩ <;>
    rw [hdescend] at h
  · exact absurd h (by simp)
  · obtain ⟨rfl, hfails⟩ := Search.failsInPlace_descendFor g _ levels _ s' hs hdescend
    refine ⟨hfails, ?_⟩
    simp only [retreat] at h
    split at h
    · exact absurd h (by simp)
    · next hback =>
      rw [hback]
  · cases hp : t.pending <;> rw [hp] at h <;> exact absurd h (by simp)

theorem Goes.arena {P : Graph → Prop}
    (leaves : ∀ a id ctx next b, Graph.Leaves a g id ctx next b → a.WellFormed → P a → P b)
    (h : Goes g full r r') (hr : r.search.Valid g) (hP : P r.search.graph) : P r'.search.graph := by
  cases h with
  | taken _ harrives => exact harrives.arena leaves hr hP
  | retreated _ hback =>
    obtain ⟨hgraph, -, -⟩ := Search.backtrack_true hr.two_le hback
    simpa only [hgraph] using hP

/-- The arena keeps its nodes. -/
theorem Goes.graph_le (h : Goes g full r r') (hr : r.search.Valid g) :
    r.search.graph ≤ r'.search.graph :=
  h.arena (P := (r.search.graph ≤ ·)) (fun _ _ _ _ _ hleaves _ hle => le_trans hle hleaves.le)
    hr (le_refl _)

theorem Goes.valid (h : Goes g full r r') (hr : r.search.Valid g) : r'.search.Valid g := by
  cases h with
  | taken _ harrives => exact harrives.valid hr
  | retreated _ hback =>
    obtain ⟨hgraph, hretreats, -⟩ := Search.backtrack_true hr.two_le hback
    exact hretreats.valid hr hgraph

end Run

namespace Parser

variable {p : Parser} {text : List Char} {source : Option String} {r r' : Run} {s : Search}

/-- One iteration that goes on, with as many levels as it takes. -/
def Next (p : Parser) (r r' : Run) : Prop :=
  ∃ levels, r.step p.grammar p.lexer p.fullBacktracking levels = some (.goOn r')

/-- The run is at the head of the loop in the course of parsing the text. -/
def Reaches (p : Parser) (text : List Char) (source : Option String) : Run → Prop :=
  Relation.ReflTransGen p.Next (p.start text source)

theorem Reaches.valid (h : p.Reaches text source r) : r.search.Valid p.grammar := by
  induction h with
  | refl => exact Search.valid_start p.grammar
  | tail _ hnext ih =>
    obtain ⟨levels, hstep⟩ := hnext
    obtain ⟨t, hf, hgoes⟩ := Run.goes_of_step ih.two_le hstep
    rw [← Run.search_fetch hf] at ih
    exact hgoes.valid ih

/-- There is only one run. -/
theorem rightUnique_next (p : Parser) : Relator.RightUnique p.Next := by
  rintro r t t' ⟨levels, ht⟩ ⟨levels', ht'⟩
  exact Run.Outcome.goOn.inj (Run.step_unique ht ht')

/-- All that is reached comes before the iteration in which the run stops. -/
theorem reflTransGen_of_stop {levels : Nat} {o : Run.Outcome} (hr : p.Reaches text source r)
    (hr' : p.Reaches text source r')
    (hstop : r'.step p.grammar p.lexer p.fullBacktracking levels = some o) (ho : ∀ t, o ≠ .goOn t) :
    Relation.ReflTransGen p.Next r r' := by
  rcases Relation.ReflTransGen.total_of_right_unique p.rightUnique_next hr hr' with hnext | hnext
  · exact hnext
  · rcases hnext.cases_head with rfl | ⟨t, ⟨levels', hstep⟩, -⟩
    · exact .refl
    · exact absurd (Run.step_unique hstop hstep) (ho t)

/-- The run after a number of iterations, if all of them go on. -/
def goOnFor (p : Parser) (levels : Nat) : Nat → Run → Option Run
  | 0, r => some r
  | n + 1, r =>
    match r.step p.grammar p.lexer p.fullBacktracking levels with
    | some (.goOn r) => goOnFor p levels n r
    | _ => none

theorem Reaches.of_goOnFor {levels : Nat} : ∀ {n : Nat} {r r' : Run}, p.Reaches text source r →
    p.goOnFor levels n r = some r' → p.Reaches text source r'
  | 0, _, _, h, hr => Option.some.inj hr ▸ h
  | n + 1, r, _, h, hr => by
    rw [goOnFor] at hr
    split at hr
    · next hstep => exact Reaches.of_goOnFor (h.tail ⟨levels, hstep⟩) hr
    · exact absurd hr (by simp)

/-- What holds at the start and is kept by every iteration that goes on holds at the head of the
loop. -/
theorem Reaches.induct {P : Run → Prop} (start : P (p.start text source))
    (goes : ∀ r t r', p.Reaches text source r → P r → r.fetch p.lexer = .ok t →
      Run.Goes p.grammar p.fullBacktracking t r' → P r')
    (h : p.Reaches text source r) : P r := by
  induction h with
  | refl => exact start
  | tail hr hnext ih =>
    obtain ⟨levels, hstep⟩ := hnext
    obtain ⟨t, hf, hgoes⟩ := Run.goes_of_step (Reaches.valid hr).two_le hstep
    exact goes _ t _ hr ih hf hgoes

/-- What holds of the ends of the root rule and is kept where a node is left holds of the arena. -/
theorem Reaches.arena {P : Graph → Prop} (start : P (.ofGrammar p.grammar))
    (leaves : ∀ a id ctx next b, Graph.Leaves a p.grammar id ctx next b → a.WellFormed → P a → P b)
    (h : p.Reaches text source r) : P r.search.graph := by
  refine h.induct (P := fun r => P r.search.graph) start ?_
  intro r t r' hr hP hf hgoes
  have hs := hr.valid
  rw [← Run.search_fetch hf] at hs hP
  exact hgoes.arena leaves hs hP

/-- What holds of the path at the start and is kept by single steps holds of the path
at the head of the loop. -/
theorem Reaches.keeps_path {P : Graph → List PathElement → Prop} (hP : Search.Keeps p.grammar P)
    (start : P (.ofGrammar p.grammar) [⟨Graph.root, none⟩]) (h : p.Reaches text source r) :
    P r.search.graph r.search.path.elements := by
  refine h.induct (P := fun r => P r.search.graph r.search.path.elements) start ?_
  intro r t r' hr hels hf hgoes
  have hs := hr.valid
  rw [← Run.search_fetch hf] at hs hels
  cases hgoes with
  | taken _ harrives => exact hP.arrives harrives hels
  | retreated _ hback =>
    obtain ⟨hgraph, hretreats, -⟩ := Search.backtrack_true hs.two_le hback
    simp only [hgraph]
    exact hP.retreats hretreats hels

/-! ## Answers -/

/-- What was made of an answer that succeeds was made of an answer that succeeds. -/
theorem exists_ok_of_map {ε α β : Type} {answer : Option (Except ε α)} {f : α → β} {b : β}
    (h : answer.map (·.map f) = some (.ok b)) : ∃ a, answer = some (.ok a) ∧ f a = b := by
  obtain ⟨_ | a, rfl, hb⟩ := Option.map_eq_some_iff.mp h
  · exact absurd hb nofun
  · exact ⟨a, rfl, Except.ok.inj hb⟩

/-- That an answer succeeds, and with what, can be checked. -/
theorem exists_ok_of_any {ε α : Type} {answer : Option (Except ε α)} {holds : α → Bool}
    (h : (answer.any (·.toOption.any holds)) = true) :
    ∃ a, answer = some (.ok a) ∧ holds a = true := by
  obtain ⟨_ | a, rfl, ha⟩ := (Option.any_eq_true _ _).mp h
  · exact absurd ha nofun
  · exact ⟨a, rfl, ha⟩

/-- A search that succeeds ends in an iteration that is done. -/
theorem exists_done_of_iterate {levels : Nat} : ∀ {fuel : Nat} {r : Run}, p.Reaches text source r →
    r.iterate p.grammar p.lexer p.fullBacktracking levels fuel = some (.ok s) →
    ∃ r, p.Reaches text source r ∧
    r.step p.grammar p.lexer p.fullBacktracking levels = some (.done s)
  | 0, _, _, h => absurd h (by simp [Run.iterate])
  | fuel + 1, r, hr, h => by
    rw [Run.iterate] at h
    split at h
    · exact absurd h (by simp)
    · next s' hstep =>
      obtain rfl : s' = s := by simpa using h
      exact ⟨r, hr, hstep⟩
    · exact absurd h (by simp)
    · next r' hstep => exact exists_done_of_iterate (hr.tail ⟨levels, hstep⟩) h

theorem exists_done {fuel : Nat} (h : p.searchWithin fuel text source = some (.ok s)) :
    ∃ r, p.Reaches text source r ∧
      r.step p.grammar p.lexer p.fullBacktracking fuel = some (.done s) :=
  exists_done_of_iterate .refl h

/-- It holds of the path that is found, too. -/
theorem keeps_path_of_searchWithin {P : Graph → List PathElement → Prop} {fuel : Nat}
    (hP : Search.Keeps p.grammar P) (start : P (.ofGrammar p.grammar) [⟨Graph.root, none⟩])
    (h : p.searchWithin fuel text source = some (.ok s)) : P s.graph s.path.elements := by
  obtain ⟨r, hr, hstep⟩ := exists_done h
  obtain ⟨t, hf, -, harrives⟩ := Run.arrives_of_step hr.valid.two_le hstep
  have hels := hr.keeps_path hP start
  rw [← Run.search_fetch hf] at hels
  exact hP.arrives harrives hels

end Parser

end GrammarGraph
