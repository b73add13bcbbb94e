import GrammarGraph.Proofs.Safety

/-!
# What every step of a search keeps

A property of the arena and the elements of the path that single steps keep (`Search.Keeps`) holds
between any two steps as well, also in the middle of a descent and of a way back.  For nodes are
released there: what is still to be tried at a level, and what was stepped back over, has the
property in an arena that is returned to later (`Moment.Has`).

* `Parser.Occurs.has`: the property holds at every moment that occurs.
* `Moment.treads`: what one step does to the path.
-/

namespace GrammarGraph

namespace Search

/-- A property of all paths of a search, which are not empty. -/
structure Invariant (g : Grammar) (P : Graph → List PathElement → Prop) :
    Prop extends Keeps g P where
  start : P (.ofGrammar g) [⟨Graph.root, none⟩]
  two_le : ∀ {a els}, P a els → 2 ≤ a.size
  ne_nil : ∀ {a els}, P a els → els ≠ []

variable {g : Grammar} {P : Graph → List PathElement → Prop} {a : Graph} {els : List PathElement}

/-- All that is on top of some elements is stepped back from. -/
theorem Invariant.drop (hP : Invariant g P) (hels : els ≠ []) : ∀ {above : List PathElement},
    P a (above ++ els) → P a els
  | [], h => h
  | _ :: above, h => hP.drop hels (hP.pop h (List.append_ne_nil_of_right_ne_nil above hels))

end Search

namespace Moment

open Search (Invariant)

variable {p : Parser} {P : Graph → List PathElement → Prop} {a b base : Graph}
  {els removed : List PathElement} {e tip : PathElement} {level : Level} {levels : List Level}
  {m m' : Moment} {r : Run}

/-! ## A property at a moment -/

/-- The levels of a descent: each node that is still to be tried at a level can be stepped onto, and
when the level is given up the arena is the one in which it was opened. -/
inductive Layered (P : Graph → List PathElement → Prop) :
    List Level → List PathElement → Graph → Prop
  | nil {a : Graph} {els : List PathElement} : P a els → Layered P [] els a
  | cons {base a : Graph} {ns : List NodeId} {levels : List Level} {tip : PathElement}
      {els : List PathElement} : base ≤ a → P a els → P a (tip :: els) →
        (∀ n ∈ ns, P a (⟨n, none⟩ :: els)) → Layered P levels els base →
      Layered P (⟨base.size, ns⟩ :: levels) (tip :: els) a

theorem Layered.holds (h : Layered P levels els a) : P a els := by
  cases h with
  | nil h => exact h
  | cons _ _ h => exact h

/-- The innermost level in between two of its nodes. -/
structure Trying (P : Graph → List PathElement → Prop) (level : Level) (levels : List Level)
    (els : List PathElement) (base a : Graph) : Prop where
  le : base ≤ a
  mark : level.mark = base.size
  holds : P a els
  next : ∀ n ∈ level.next, P a (⟨n, none⟩ :: els)
  layered : Layered P levels els base

/-- To step back from the tip returns to the innermost level. -/
theorem Layered.tail (h : Layered P (level :: levels) els a) :
    ∃ base, Trying P level levels els.tail base a := by
  cases h with
  | cons hle hels _ hnext hlevels => exact ⟨_, hle, rfl, hels, hnext, hlevels⟩

/-- The siblings of `e`, which was stepped back from.  A sibling that was there before them can be
stepped onto without what was wired to find them. -/
structure Choosing (P : Graph → List PathElement → Prop) (e : PathElement) (level : Level)
    (removed els : List PathElement) (base a : Graph) : Prop where
  le : base ≤ a
  mark : level.mark = base.size
  ne_nil : els ≠ []
  holds : P a els
  removed : P base (removed.reverse ++ e :: els)
  next : ∀ n ∈ level.next, P a (⟨n, none⟩ :: els) ∧ (n < level.mark → P base (⟨n, none⟩ :: els))

/-- The path has the property, and so have all paths that are returned to. -/
def Has (P : Graph → List PathElement → Prop) (m : Moment) : Prop :=
  match m.task with
  | .fetch => P m.graph m.run.search.path.elements
  | .descend levels | .giveUp levels => Layered P levels m.run.search.path.elements m.graph
  | .tryNext level levels => ∃ base, Trying P level levels m.run.search.path.elements base m.graph
  | .backtrack removed | .restore removed =>
    m.run.search.path.elements ≠ [] ∧ P m.graph (removed.reverse ++ m.run.search.path.elements)
  | .stepBack removed =>
    m.run.search.path.elements.tail ≠ [] ∧ P m.graph (removed.reverse ++ m.run.search.path.elements)
  | .switch e removed =>
    m.run.search.path.elements ≠ [] ∧ P m.graph (removed.reverse ++ e :: m.run.search.path.elements)
  | .choose e level removed =>
    ∃ base, Choosing P e level removed m.run.search.path.elements base m.graph

theorem ne_nil_of_tail (h : els.tail ≠ []) : els ≠ [] := by
  rintro rfl
  exact h rfl

theorem Has.holds {g : Grammar} (hP : Invariant g P) (h : m.Has P) :
    P m.graph m.run.search.path.elements := by
  obtain ⟨r, task⟩ := m
  cases task with
  | fetch => exact h
  | descend | giveUp => exact Layered.holds h
  | tryNext => exact h.choose_spec.holds
  | backtrack | restore => exact hP.drop h.1 h.2
  | stepBack => exact hP.drop (ne_nil_of_tail h.1) h.2
  | switch e removed =>
    obtain ⟨hne, habove⟩ := h
    rw [List.append_cons] at habove
    exact hP.drop hne habove
  | choose => exact h.choose_spec.holds

end Moment

/-- A step has led on to a moment with the property, or to a path with it. -/
def Progress.Has (P : Graph → List PathElement → Prop) : Progress → Prop
  | .goOn m => m.Has P
  | .stop (.ok s) => P s.graph s.path.elements
  | .stop (.error _) => True

namespace Run

open Search (Invariant)
open Moment (Layered Trying Choosing)

variable {p : Parser} {P : Graph → List PathElement → Prop} {base : Graph} {r : Run}
  {removed : List PathElement} {e : PathElement} {level : Level} {levels : List Level}

theorem has_arrive {s : Search} (hs : P s.graph s.path.elements) : (r.arrive s).Has P := by
  rw [arrive]
  split
  · exact hs
  · exact hs

theorem has_leaveTip {tip : PathElement} (hP : Invariant p.grammar P)
    (ht : r.search.path.tip? = some tip)
    (h : Layered P levels r.search.path.elements r.search.graph) :
    (r.leaveTip p tip levels).Has P := by
  obtain ⟨rest, hels⟩ := Search.exists_rest ht
  have htip := h.holds
  rw [hels] at htip
  rw [leaveTip]
  split
  · next graph hsucc =>
    obtain rfl := Graph.successors_none hsucc
    rw [Graph.truncate_of_le (le_refl r.search.graph) (hP.two_le htip)]
    exact h
  · next next graph hsucc =>
    have hleaves := Graph.leaves_of_successors hsucc
    have hwired : P graph r.search.path.elements := by
      rw [hels]
      exact hP.wire htip hleaves
    split
    · exact has_arrive hwired
    · refine ⟨r.search.graph, hleaves.le, rfl, hwired, ?_, h⟩
      intro n hn
      show P graph (⟨n, none⟩ :: r.search.path.elements)
      rw [hels]
      exact hP.step htip hleaves hn

theorem has_descendTip (hP : Invariant p.grammar P)
    (h : Layered P levels r.search.path.elements r.search.graph) :
    (r.descendTip p levels).Has P := by
  rw [descendTip]
  split
  · exact h
  · next tip ht =>
    split
    · next type he =>
      split
      · next hany =>
        apply has_arrive
        obtain ⟨t, htoken, -⟩ := (Option.any_eq_true _ _).mp hany
        obtain ⟨rest, hels⟩ := Search.exists_rest ht
        obtain ⟨hnone, ident, hook, hk⟩ := Search.isSlot_of_expected? ht he
        obtain ⟨n, _⟩ := tip
        subst hnone
        have htip := h.holds
        rw [hels] at htip
        rw [Search.elements_push, Search.elements_pop, hels, htoken]
        exact hP.take t htip hk
      · exact h
    · exact has_leaveTip hP ht h

theorem has_tryLevel (hP : Invariant p.grammar P)
    (h : Trying P level levels r.search.path.elements base r.search.graph) :
    (r.tryLevel p levels level).Has P := by
  obtain ⟨mark, _ | ⟨n, ns⟩⟩ := level
  · show Layered P levels r.search.path.elements (r.search.graph.truncate mark)
    rw [show mark = base.size from h.mark, Graph.truncate_of_le h.le (hP.two_le h.layered.holds)]
    exact h.layered
  · obtain ⟨hle, hmark, hels, hnext, hlevels⟩ := h
    rw [tryLevel]
    split
    · exact ⟨base, hle, hmark, hels, fun m hm => hnext m (List.mem_cons_of_mem n hm), hlevels⟩
    · obtain rfl : mark = base.size := hmark
      exact .cons hle hels (hnext n List.mem_cons_self)
        (fun m hm => hnext m (List.mem_cons_of_mem n hm)) hlevels

theorem has_backtrackTip (hne : r.search.path.elements ≠ [])
    (h : P r.search.graph (removed.reverse ++ r.search.path.elements)) :
    (r.backtrackTip removed).Has P := by
  rw [backtrackTip]
  split
  · exact ⟨hne, h⟩
  · next hlength =>
    obtain ⟨e, rest, hels⟩ := List.exists_cons_of_ne_nil hne
    have hrest : rest ≠ [] := by
      rintro rfl
      rw [Path.length, hels] at hlength
      exact hlength (le_refl 1)
    rw [show r.search.path.tip? = some e by rw [Path.tip?, hels, List.head?_cons]]
    refine ⟨?_, ?_⟩
    · rw [Search.elements_pop, hels]
      exact hrest
    · rw [Search.elements_pop, hels]
      rwa [hels] at h

theorem has_leaveParent (hP : Invariant p.grammar P) (hne : r.search.path.elements ≠ [])
    (h : P r.search.graph (removed.reverse ++ e :: r.search.path.elements)) :
    (r.leaveParent p e removed).Has P := by
  have hels : P r.search.graph r.search.path.elements := by
    rw [List.append_cons] at h
    exact hP.drop hne h
  rw [leaveParent]
  split
  · next hparent => exact absurd (List.head?_eq_none_iff.mp hparent) hne
  · next parent hparent =>
    obtain ⟨rest, hcons⟩ := Search.exists_rest hparent
    rcases hsucc : r.search.graph.successors p.grammar parent.node
      ⟨r.search.path, e.token⟩ with ⟨_ | next, graph⟩
    · obtain rfl := Graph.successors_none hsucc
      exact ⟨_, le_refl _, rfl, hne, hels, h, fun _ hn => absurd hn List.not_mem_nil⟩
    · have hleaves := Graph.leaves_of_successors hsucc
      have hparent := hels
      rw [hcons] at hparent
      refine ⟨r.search.graph, hleaves.le, rfl, hne, ?_, h, fun n hn => ⟨?_, fun hlt => ?_⟩⟩
      · show P graph r.search.path.elements
        rw [hcons]
        exact hP.wire hparent hleaves
      · show P graph (⟨n, none⟩ :: r.search.path.elements)
        rw [hcons]
        exact hP.step hparent hleaves hn
      · rcases hleaves.mem_targets_or_entry hn with ⟨-, rfl⟩ | ⟨rfl, -⟩
        · show P r.search.graph (⟨n, none⟩ :: r.search.path.elements)
          rw [hcons]
          exact hP.step hparent hleaves hn
        · -- The entry of a body is a new node.
          exact absurd hlt (lt_irrefl _)

/-- The sibling is stepped onto with what was wired to find it, or without if it is older. -/
theorem has_chooseSibling (hP : Invariant p.grammar P)
    (h : Choosing P e level removed r.search.path.elements base r.search.graph) :
    (r.chooseSibling p e level removed).Has P := by
  have htruncate : r.search.graph.truncate level.mark = base := by
    rw [h.mark, Graph.truncate_of_le h.le (hP.two_le h.removed)]
  rw [chooseSibling]
  split
  · next n hn =>
    have hmem :=
      (List.dropWhile_sublist _).mem (List.mem_of_mem_tail (List.mem_of_find?_eq_some hn))
    split
    · next hlt =>
      rw [htruncate]
      exact (h.next n hmem).2 hlt
    · exact (h.next n hmem).1
  · rw [htruncate]
    exact ⟨h.ne_nil, h.removed⟩

theorem has_stepBackTip (hne : r.search.path.elements.tail ≠ [])
    (h : P r.search.graph (removed.reverse ++ r.search.path.elements)) :
    (r.stepBackTip p removed).Has P := by
  obtain ⟨e, rest, hels⟩ := List.exists_cons_of_ne_nil (Moment.ne_nil_of_tail hne)
  rw [stepBackTip]
  split
  · exact ⟨Moment.ne_nil_of_tail hne, h⟩
  · have htip : r.search.path.tip? = some e := by rw [Path.tip?, hels, List.head?_cons]
    simp only [Search.stepBack, htip]
    refine ⟨?_, ?_⟩
    · rw [Search.elements_pop]
      exact hne
    · show P r.search.graph ((e :: removed).reverse ++ r.search.pop.path.elements)
      rw [Search.elements_pop, hels, List.reverse_cons, List.append_assoc]
      rwa [hels] at h

end Run

namespace Moment

open Search (Invariant)

variable {p : Parser} {P : Graph → List PathElement → Prop} {m m' : Moment}

/-- One step. -/
theorem Has.next (hP : Invariant p.grammar P) (h : m.Has P) : (m.next p).Has P := by
  obtain ⟨r, task⟩ := m
  cases task with
  | fetch =>
    rw [Moment.next]
    split
    · trivial
    · next r' hf =>
      refine Layered.nil ?_
      show P r'.search.graph r'.search.path.elements
      rw [Run.search_fetch hf]
      exact h
  | descend levels => exact Run.has_descendTip hP h
  | tryNext level levels => exact Run.has_tryLevel hP h.choose_spec
  | giveUp levels =>
    cases levels with
    | nil => exact ⟨hP.ne_nil (Layered.holds h), Layered.holds h⟩
    | cons level levels =>
      have htrying := Layered.tail h
      rw [← Search.elements_pop] at htrying
      exact htrying
  | backtrack removed => exact Run.has_backtrackTip h.1 h.2
  | switch e removed => exact Run.has_leaveParent hP h.1 h.2
  | choose e level removed => exact Run.has_chooseSibling hP h.choose_spec
  | stepBack removed => exact Run.has_stepBackTip h.1 h.2
  | restore removed =>
    cases removed with
    | nil => trivial
    | cons e removed =>
      refine ⟨List.cons_ne_nil _ _, ?_⟩
      have hback := h.2
      rw [List.reverse_cons, List.append_assoc] at hback
      exact hback

end Moment

/-! ## What a step does to the path -/

/-- The path stays or is left for one more node, in an arena that may have changed; or its tip is
stepped back from, and may be stepped onto again with a token. -/
inductive Search.Treads (g : Grammar) (s : Search) : Search → Prop
  | stays (graph : Graph) : Treads g s { s with graph }
  | pushes (graph : Graph) (n : NodeId) (token : Option Token) :
      Treads g s (({ s with graph } : Search).push g n token)
  | pops : Treads g s s.pop
  | takes (n : NodeId) (token : Option Token) : Treads g s (s.pop.push g n token)

/-- A step has led to a path that is one step further, at the next moment or as the one that is
found. -/
def Progress.Treads (g : Grammar) (s : Search) : Progress → Prop
  | .goOn m => s.Treads g m.run.search
  | .stop (.ok s') => s.Treads g s'
  | .stop (.error _) => True

namespace Run

open Search (Treads)

variable {p : Parser} {r : Run} {removed : List PathElement} {e : PathElement} {level : Level}
  {levels : List Level}

theorem treads_arrive {g : Grammar} {s s' : Search} (h : s.Treads g s') :
    (r.arrive s').Treads g s := by
  rw [arrive]
  split
  · exact h
  · exact h

theorem treads_descendTip : (r.descendTip p levels).Treads p.grammar r.search := by
  rw [descendTip]
  split
  · exact .stays _
  · next tip _ =>
    split
    · split
      · exact treads_arrive (.takes _ _)
      · exact .stays _
    · rw [leaveTip]
      split
      · exact .stays _
      · split
        · exact treads_arrive (.stays _)
        · exact .stays _

theorem treads_tryLevel : (r.tryLevel p levels level).Treads p.grammar r.search := by
  obtain ⟨mark, _ | ⟨n, ns⟩⟩ := level
  · exact .stays _
  · rw [tryLevel]
    split
    · exact .stays _
    · exact .pushes _ _ _

theorem treads_backtrackTip : (r.backtrackTip removed).Treads p.grammar r.search := by
  rw [backtrackTip]
  split
  · exact .stays _
  · split
    · exact .stays _
    · exact .pops

theorem treads_leaveParent : (r.leaveParent p e removed).Treads p.grammar r.search := by
  rw [leaveParent]
  split
  · exact .pushes _ _ _
  · exact .stays _

theorem treads_chooseSibling : (r.chooseSibling p e level removed).Treads p.grammar r.search := by
  rw [chooseSibling]
  split
  · exact .pushes _ _ _
  · exact .pushes _ _ _

theorem treads_stepBackTip : (r.stepBackTip p removed).Treads p.grammar r.search := by
  rw [stepBackTip]
  split
  · exact .stays _
  · cases ht : r.search.path.tip? with
    | none =>
      simp only [Search.stepBack, ht]
      exact .stays _
    | some e =>
      simp only [Search.stepBack, ht]
      exact .pops

end Run

namespace Moment

theorem treads (p : Parser) (m : Moment) : (m.next p).Treads p.grammar m.run.search := by
  obtain ⟨r, task⟩ := m
  cases task with
  | fetch =>
    rw [Moment.next]
    split
    · trivial
    · next r' hf =>
      show r.search.Treads p.grammar r'.search
      rw [Run.search_fetch hf]
      exact .stays _
  | descend => exact Run.treads_descendTip
  | tryNext => exact Run.treads_tryLevel
  | giveUp levels =>
    cases levels with
    | nil => exact .stays _
    | cons => exact .pops
  | backtrack => exact Run.treads_backtrackTip
  | switch => exact Run.treads_leaveParent
  | choose => exact Run.treads_chooseSibling
  | stepBack => exact Run.treads_stepBackTip
  | restore removed =>
    cases removed with
    | nil => trivial
    | cons => exact .pushes _ _ _

end Moment

namespace Parser

variable {p : Parser} {text : List Char} {source : Option String} {m : Moment}
  {P : Graph → List PathElement → Prop}

/-- A property that every step keeps holds at every moment. -/
theorem Occurs.has (hP : Search.Invariant p.grammar P) (h : p.Occurs text source m) : m.Has P := by
  induction h with
  | refl => exact hP.start
  | tail _ hthen ih =>
    have hnext := ih.next hP
    rwa [hthen] at hnext

end Parser

end GrammarGraph
