import GrammarGraph.Proofs.Frames
import GrammarGraph.Proofs.Reach

/-!
# Rule instances close in turn

The rule instances along a path open and close like brackets: `Path.openEnds?` gives the ends of
those that are still open, and fails where an element ends any other instance than the innermost
open one.  It never fails on a path of the search, as long as the bodies link to no ends of rules
(`Path.Placed.openEnds?_eq`), and no instance is open any more exactly where the path stands on the
end of the root rule (`Path.Placed.openAt_eq_nil`).
-/

namespace GrammarGraph

/-- The end of the rule instance that the node starts. -/
def NodeKind.stop? : NodeKind → Option NodeId
  | ruleStart _ _ stop => some stop
  | _ => none

/-- The end of the root rule. -/
def Graph.rootEnd : NodeId := 0

namespace Graph

variable {graph : Graph} {g : Grammar} {id n : NodeId}

theorem kind_root (h : .ofGrammar g ≤ graph) :
    graph.kind root = .ruleStart g.root g.ident rootEnd :=
  kind_of_le h Nat.one_lt_two

theorem kind_rootEnd (h : .ofGrammar g ≤ graph) : graph.kind rootEnd = .ruleEnd g.root g.ident :=
  kind_of_le h Nat.zero_lt_two

theorem targets_rootEnd (h : .ofGrammar g ≤ graph) : graph.targets rootEnd = [] :=
  (targets_of_le h Nat.zero_lt_two).trans (targets_ofGrammar g _)

/-- A node that is linked to others starts no rule instance. -/
theorem stop?_of_mem_targets (hn : n ∈ graph.targets id) : (graph.kind id).stop? = none := by
  rw [targets] at hn
  cases hk : graph.kind id with
  | ruleStart =>
    rw [hk] at hn
    exact absurd hn List.not_mem_nil
  | _ => rfl

end Graph

namespace Path

variable {a b graph : Graph} {g : Grammar} {n : NodeId} {els : List PathElement} {e : PathElement}
  {f : Frame} {frames fs : List Frame}

/-- The ends of the rule instances that are open behind the elements, which come with
the tip first; the innermost one first.  Nothing if an element ends another instance
than the innermost open one. -/
def openEnds? (graph : Graph) : List PathElement → Option (List NodeId)
  | [] => some []
  | e :: rest =>
    (openEnds? graph rest).bind fun ends =>
      match graph.kind e.node, ends with
      | .ruleStart _ _ stop, ends => some (stop :: ends)
      | .ruleEnd .., [] => none
      | .ruleEnd .., stop :: ends => if stop = e.node then some ends else none
      | _, ends => some ends

/-- The bodies around the elements of a path, the innermost first.  A rule start is left into a body
of its own, a body to the end of its rule. -/
inductive Placed (graph : Graph) (g : Grammar) : List PathElement → List Frame → Prop
  | root : .ofGrammar g ≤ graph → Placed graph g [⟨Graph.root, none⟩] [.base g]
  | inside {els : List PathElement} {parent e : PathElement} {f : Frame} {fs : List Frame} :
      Placed graph g (parent :: els) (f :: fs) → e.node ∈ graph.targets parent.node →
        f.Holds e.node → (graph.kind e.node).isRuleEnd = false →
      (e.token.isSome = true → (graph.kind e.node).isSlot = true) →
      Placed graph g (e :: parent :: els) (f :: fs)
  | leave {els : List PathElement} {parent : PathElement} {f f' : Frame} {fs : List Frame} :
      Placed graph g (parent :: els) (f' :: f :: fs) → f'.stop ∈ graph.targets parent.node →
      Placed graph g (⟨f'.stop, none⟩ :: parent :: els) (f :: fs)
  | enter {els : List PathElement} {parent : PathElement} {f f' : Frame} {fs : List Frame}
      {ident : Option String} : Placed graph g (parent :: els) (f :: fs) →
        graph.kind parent.node = .ruleStart f'.rule ident f'.stop → graph.kind f'.lo = .junction →
      Nested graph g (f' :: f :: fs) →
      Placed graph g (⟨f'.lo, none⟩ :: parent :: els) (f' :: f :: fs)

/-- The ends of the open rule instances, told from the bodies around the tip: those of
all bodies but the outermost, and the end that belongs to the tip if it is a start
that has not been left yet. -/
def openAt (graph : Graph) (els : List PathElement) (frames : List Frame) : List NodeId :=
  (els.head?.bind fun tip => (graph.kind tip.node).stop?).toList ++ frames.dropLast.map (·.stop)

theorem openAt_cons (graph : Graph) (e : PathElement) (els : List PathElement)
    (frames : List Frame) : openAt graph (e :: els) frames =
      (graph.kind e.node).stop?.toList ++ frames.dropLast.map (·.stop) := rfl

theorem openAt_of_stop? (h : (graph.kind e.node).stop? = none) (els : List PathElement)
    (frames : List Frame) : openAt graph (e :: els) frames = frames.dropLast.map (·.stop) := by
  rw [openAt_cons, h, Option.toList_none, List.nil_append]

namespace Placed

theorem nested (h : Placed graph g els frames) : Nested graph g frames := by
  induction h with
  | root hbase => exact .base hbase
  | inside _ _ _ _ _ ih => exact ih
  | leave _ _ ih =>
    cases ih with
    | cons hnested => exact hnested
  | enter _ _ _ hnested => exact hnested

theorem base_le (h : Placed graph g els frames) : .ofGrammar g ≤ graph := by
  induction h with
  | root hbase => exact hbase
  | inside _ _ _ _ _ ih | leave _ _ ih | enter _ _ _ _ ih => exact ih

/-- The tip is in the innermost body. -/
theorem holds_tip (h : Placed graph g (e :: els) frames) :
    ∃ f fs, frames = f :: fs ∧ f.Holds e.node := by
  cases h with
  | root => exact ⟨_, _, rfl, Nat.zero_le _, Nat.one_lt_two⟩
  | inside _ _ hholds => exact ⟨_, _, rfl, hholds⟩
  | leave hplaced =>
    cases hplaced.nested with
    | cons _ _ _ _ hstop => exact ⟨_, _, rfl, hstop⟩
  | enter _ _ _ hnested => exact ⟨_, _, rfl, le_refl _, hnested.region.lt⟩

theorem lt_size (h : Placed graph g (e :: els) frames) : e.node < graph.size := by
  obtain ⟨f, fs, rfl, hholds⟩ := h.holds_tip
  exact lt_of_lt_of_le hholds.2 h.nested.region.le

theorem of_le (hle : a ≤ b) (h : Placed a g els frames) : Placed b g els frames := by
  induction h with
  | root hbase => exact .root (le_trans hbase hle)
  | inside hplaced htargets hholds hend hslot ih =>
    rw [← Graph.targets_of_le hle hplaced.lt_size] at htargets
    have hk := Graph.kind_of_le hle (lt_of_lt_of_le hholds.2 hplaced.nested.region.le)
    exact .inside ih htargets hholds (by rwa [hk]) (by rwa [hk])
  | leave hplaced htargets ih =>
    rw [← Graph.targets_of_le hle hplaced.lt_size] at htargets
    exact .leave ih htargets
  | enter hplaced hk hentry hnested ih =>
    rw [← Graph.kind_of_le hle hplaced.lt_size] at hk
    rw [← Graph.kind_of_le hle (lt_of_lt_of_le hnested.region.lt hnested.region.le)] at hentry
    exact .enter ih hk hentry (hnested.of_le hle)

theorem step {tip : PathElement} {ctx : Context} {next : List NodeId} (hg : g.EndsApart)
    (h : Placed a g (tip :: els) frames) (hleaves : a.Leaves g tip.node ctx next b)
    (hn : n ∈ next) : ∃ frames', Placed b g (⟨n, none⟩ :: tip :: els) frames' := by
  obtain ⟨f, fs, rfl, hholds⟩ := h.holds_tip
  obtain ⟨frames', hmoves⟩ := h.nested.exists_moves hg hholds hleaves hn
  have hb := h.of_le hleaves.le
  cases hmoves with
  | inside hgraph htargets hn hend =>
    subst hgraph
    exact ⟨_, .inside hb htargets hn hend nofun⟩
  | leave hgraph htargets hstop =>
    subst hgraph hstop
    exact ⟨_, .leave hb htargets⟩
  | enter hk hlo hentry hnested =>
    subst hlo
    rw [← Graph.kind_of_le hleaves.le h.lt_size] at hk
    exact ⟨_, .enter hb hk hentry hnested⟩

/-- A rule end is stepped onto from the body that it ends. -/
theorem of_isRuleEnd (h : Placed graph g (e :: els) frames)
    (hend : (graph.kind e.node).isRuleEnd = true) :
    ∃ parent rest f f' fs, e = ⟨f'.stop, none⟩ ∧ els = parent :: rest ∧ frames = f :: fs ∧
      Placed graph g (parent :: rest) (f' :: f :: fs) ∧ f'.stop ∈ graph.targets parent.node := by
  cases h with
  | root hbase =>
    rw [Graph.kind_root hbase] at hend
    exact absurd hend nofun
  | inside _ _ _ hend' => exact absurd (hend'.symm.trans hend) nofun
  | leave hplaced htargets => exact ⟨_, _, _, _, _, rfl, rfl, rfl, hplaced, htargets⟩
  | enter _ _ hentry =>
    rw [hentry] at hend
    exact absurd hend nofun

theorem take {type : TokenType} {ident : Option String} {hook : Option Hook}
    (h : Placed graph g (⟨n, none⟩ :: els) frames) (hk : graph.kind n = .slot type ident hook)
    (t : Token) : Placed graph g (⟨n, some t⟩ :: els) frames := by
  cases h with
  | root hbase => exact absurd ((Graph.kind_of_le hbase (Nat.lt_succ_self 1)).symm.trans hk) nofun
  | inside hplaced htargets hholds hend =>
    exact .inside (e := ⟨n, some t⟩) hplaced htargets hholds hend fun _ => by rw [hk]; rfl
  | leave hplaced =>
    obtain ⟨_, hkind⟩ := hplaced.nested.kind_stop
    exact absurd (hkind.symm.trans hk) nofun
  | enter _ _ hentry => exact absurd (hentry.symm.trans hk) nofun

theorem pop (h : Placed graph g (e :: els) frames) (hels : els ≠ []) :
    ∃ frames', Placed graph g els frames' := by
  cases h with
  | root => exact absurd rfl hels
  | inside hplaced | leave hplaced | enter hplaced => exact ⟨_, hplaced⟩

theorem keeps (hg : g.EndsApart) : Search.Keeps g fun graph els =>
    ∃ frames, Placed graph g els frames where
  wire := fun ⟨_, h⟩ hleaves => ⟨_, h.of_le hleaves.le⟩
  step := fun ⟨_, h⟩ hleaves hn => h.step hg hleaves hn
  take := fun t ⟨_, h⟩ hk => ⟨_, h.take hk t⟩
  pop := fun ⟨_, h⟩ hels => h.pop hels

/-! ## What is open -/

/-- Every element that ends a rule instance ends the innermost open one. -/
theorem openEnds?_eq (h : Placed graph g els frames) :
    openEnds? graph els = some (openAt graph els frames) := by
  induction h with
  | root hbase =>
    rw [openEnds?, openAt_cons, Graph.kind_root hbase]
    rfl
  | @inside els parent e f fs _ htargets _ hend _ ih =>
    rw [openEnds?, ih, openAt_of_stop? (Graph.stop?_of_mem_targets htargets), openAt_cons,
      Option.bind_some]
    cases hk : graph.kind e.node with
    | ruleEnd =>
      rw [hk] at hend
      exact absurd hend nofun
    | _ => rfl
  | @leave els parent f f' fs hplaced htargets ih =>
    obtain ⟨ident, hk⟩ := hplaced.nested.kind_stop
    rw [openEnds?, ih, openAt_of_stop? (Graph.stop?_of_mem_targets htargets),
      openAt_of_stop? (by rw [hk]; rfl), hk, Option.bind_some]
    exact if_pos rfl
  | @enter els parent f f' fs ident hplaced hk hentry _ ih =>
    rw [openEnds?, ih, openAt_cons, hk, openAt_of_stop? (by rw [hentry]; rfl), hentry]
    rfl

/-- No rule instance is open any more just where the path stands on the end of the root rule. -/
theorem openAt_eq_nil (h : Placed graph g (e :: els) frames) :
    openAt graph (e :: els) frames = [] ↔ e.node = Graph.rootEnd := by
  obtain ⟨f, fs, rfl, hholds⟩ := h.holds_tip
  rw [openAt_cons, List.append_eq_nil_iff]
  constructor
  · rintro ⟨hstop, hframes⟩
    cases fs with
    | cons => exact absurd hframes (List.cons_ne_nil _ _)
    | nil =>
      -- Only the two ends of the root rule are in no body.
      cases h.nested with
      | base hbase =>
        rcases Nat.le_one_iff_eq_zero_or_eq_one.mp (Nat.le_of_lt_succ hholds.2) with hnode | hnode
        · exact hnode
        · rw [show e.node = Graph.root from hnode, Graph.kind_root hbase] at hstop
          exact absurd hstop (List.cons_ne_nil _ _)
  · intro hnode
    rw [hnode] at hholds ⊢
    rw [Graph.kind_rootEnd h.base_le]
    cases h.nested with
    | base => exact ⟨rfl, rfl⟩
    | cons hnested _ _ hbehind =>
      exact absurd (le_trans hnested.two_le_hi (le_trans hbehind hholds.1)) (by decide)

end Placed

end Path

end GrammarGraph
