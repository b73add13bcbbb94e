import GrammarGraph.Proofs.Backtrack
import GrammarGraph.Proofs.Sockets
import GrammarGraph.Proofs.Stack
import Mathlib.Data.Finset.Card
import Mathlib.Order.Interval.Finset.Nat

/-!
# Open bodies

Every visit of a rule start wires a new body, so not returning to a node bounds nothing by itself.
What bounds a path without tokens are its open bodies (`Path.Framed`):

* within a body each node is visited once,
* a rule is not entered again while it is open, so there are no more bodies opened since the last
  token than there are rules, and
* a body that was left is not returned to.

The nodes left to visit in each open body, the innermost first, form a stack that every step
makes lower (`Path.Framed.step`).  All this holds where the bodies keep the ends of rules apart:
a link to the end of a rule that was not entered would count as one of its instances left, and
let the rule be entered again.
-/

namespace GrammarGraph

/-- A body that was entered and not yet left: the nodes from `lo` on and below `hi`. -/
structure Frame where
  rule : RuleId
  lo : Nat
  hi : Nat
  stop : NodeId

namespace Frame

/-- The two ends of the root rule, which are in no body. -/
def base (g : Grammar) : Frame := ⟨g.root, 0, 2, 0⟩

def Holds (f : Frame) (n : NodeId) : Prop := f.lo ≤ n ∧ n < f.hi

end Frame

namespace Path

variable {a b graph : Graph} {g : Grammar} {n : NodeId} {els : List PathElement} {e : PathElement}
  {f f' : Frame} {frames fs : List Frame} {fresh : ℕ}

/-! ## Visited nodes -/

/-- The nodes visited since the last token. -/
def visited (els : List PathElement) : List NodeId := (els.takeWhile (·.token.isNone)).map (·.node)

@[simp] theorem visited_cons_none (n : NodeId) (els : List PathElement) :
    visited (⟨n, none⟩ :: els) = n :: visited els := by
  simp only [visited, List.takeWhile_cons, Option.isNone_none, if_true, List.map_cons]

@[simp] theorem visited_cons_some (n : NodeId) (t : Token) (els : List PathElement) :
    visited (⟨n, some t⟩ :: els) = [] := by
  rw [visited, List.takeWhile_cons, if_neg nofun, List.map_nil]

theorem lt_size_of_mem_visited (hels : ∀ e ∈ els, e.node < a.size) (hn : n ∈ visited els) :
    n < a.size := by
  obtain ⟨e, he, rfl⟩ := List.mem_map.mp hn
  exact hels e (List.takeWhile_subset _ he)

/-- A node that a path does not return to was not visited since the last token. -/
theorem not_mem_visited (graph : Graph) : ∀ {closed : Nat} {els : List PathElement},
    revisitsIn graph n closed els = false → n ∉ visited els
  | _, [], _ => List.not_mem_nil
  | closed, ⟨node, some t⟩ :: els, _ => by
    rw [visited_cons_some]
    exact List.not_mem_nil
  | closed, ⟨node, none⟩ :: els, h => by
    rw [visited_cons_none]
    unfold revisitsIn at h
    rw [if_neg (by simp)] at h
    split at h
    · exact absurd h (by simp)
    · next hne =>
      refine List.not_mem_cons_of_ne_of_not_mem (Ne.symm hne) ?_
      split at h
      · exact not_mem_visited graph h
      · split at h
        · exact not_mem_visited graph h
        · split at h
          · split at h
            · exact absurd h (by simp)
            · exact not_mem_visited graph h
          · exact not_mem_visited graph h

/-- Looking for an open instance of a rule: ends of the rule count up, and starts count down. -/
theorem revisitsIn_cons {rule : RuleId} {closed : Nat}
    (hn : (graph.kind n).startedRule? = some rule) (he : e.token = none) :
    revisitsIn graph n closed (e :: els) =
      if e.node = n then true
      else if (graph.kind e.node).endedRule? = some rule then revisitsIn graph n (closed + 1) els
      else if (graph.kind e.node).startedRule? = some rule then
        match closed with
        | 0 => true
        | closed + 1 => revisitsIn graph n closed els
      else revisitsIn graph n closed els := by
  rw [revisitsIn.eq_def]
  simp only [he, hn, Option.isSome_none]
  rfl

theorem revisitsIn_self {closed : Nat} (he : e.token = none) :
    revisitsIn graph e.node closed (e :: els) = true := by
  rw [revisitsIn.eq_def]
  simp only [he, Option.isSome_none, Bool.false_eq_true, if_false, if_true]

theorem revisitsIn_of_ends {rule rule' : RuleId} {closed : Nat}
    (hn : (graph.kind n).startedRule? = some rule) (he : e.token = none)
    (hend : (graph.kind e.node).endedRule? = some rule') (hne : e.node ≠ n) :
    revisitsIn graph n closed (e :: els) =
      revisitsIn graph n (if rule' = rule then closed + 1 else closed) els := by
  have hstart : (graph.kind e.node).startedRule? = none := by
    cases hk : graph.kind e.node with
    | ruleStart => rw [hk] at hend; cases hend
    | _ => rfl
  rw [revisitsIn_cons hn he, if_neg hne]
  simp only [hend, hstart, Option.some_inj, reduceCtorEq, if_false]
  split <;> rfl

theorem revisitsIn_of_starts {rule rule' : RuleId} {closed : Nat}
    (hn : (graph.kind n).startedRule? = some rule) (he : e.token = none)
    (hstart : (graph.kind e.node).startedRule? = some rule') (hne : e.node ≠ n) :
    revisitsIn graph n closed (e :: els) =
      if rule' = rule then
        match closed with
        | 0 => true
        | closed + 1 => revisitsIn graph n closed els
      else revisitsIn graph n closed els := by
  have hend : (graph.kind e.node).endedRule? = none := by
    cases hk : graph.kind e.node with
    | ruleEnd => rw [hk] at hstart; cases hstart
    | _ => rfl
  rw [revisitsIn_cons hn he, if_neg hne]
  simp only [hend, hstart, Option.some_inj, reduceCtorEq, if_false]

theorem revisitsIn_skip {rule : RuleId} {closed : Nat}
    (hn : (graph.kind n).startedRule? = some rule) (he : e.token = none)
    (hend : (graph.kind e.node).isRuleEnd = false)
    (hstart : (graph.kind e.node).startedRule? = none) (hne : e.node ≠ n) :
    revisitsIn graph n closed (e :: els) = revisitsIn graph n closed els := by
  have hended : (graph.kind e.node).endedRule? = none := by
    cases hk : graph.kind e.node with
    | ruleEnd => rw [hk] at hend; cases hend
    | _ => rfl
  rw [revisitsIn_cons hn he, if_neg hne]
  simp only [hended, hstart, reduceCtorEq, if_false]

/-- A path returns neither to a node that it did not visit since the last token, nor into a rule
that it did not start since then. -/
theorem not_revisits (hn : n ∉ visited els)
    (hrule : ∀ rule, (graph.kind n).startedRule? = some rule →
      ∀ m ∈ visited els, (graph.kind m).startedRule? ≠ some rule) :
    ∀ closed, revisitsIn graph n closed els = false := by
  induction els with
  | nil => exact fun _ => rfl
  | cons e els ih =>
    obtain ⟨m, _ | t⟩ := e
    · intro closed
      rw [visited_cons_none, List.mem_cons, not_or] at hn
      simp only [visited_cons_none, List.forall_mem_cons] at hrule
      have hrest := ih hn.2 fun rule hk => (hrule rule hk).2
      rw [revisitsIn.eq_def]
      simp only [Option.isSome_none, Bool.false_eq_true, if_false, if_neg (Ne.symm hn.1)]
      split
      · exact hrest closed
      · next rule hk => rw [if_neg (hrule rule hk).1, hrest, hrest, ite_self]
    · intro closed
      rw [revisitsIn.eq_def]
      rfl

/-- How many nodes of a body were not visited since the last token. -/
def unvisited (els : List PathElement) (f : Frame) : ℕ :=
  (Finset.Ico f.lo f.hi \ (visited els).toFinset).card

theorem unvisited_lt (hf : f.Holds n) (hn : n ∉ visited els) :
    unvisited (⟨n, none⟩ :: els) f < unvisited els f := by
  apply Finset.card_lt_card
  rw [Finset.ssubset_iff_of_subset]
  · refine ⟨n, ?_, ?_⟩
    · rw [Finset.mem_sdiff, Finset.mem_Ico, List.mem_toFinset]
      exact ⟨hf, hn⟩
    · simp
  · intro m hm
    rw [Finset.mem_sdiff, List.mem_toFinset] at hm ⊢
    rw [visited_cons_none, List.mem_cons, not_or] at hm
    exact ⟨hm.1, hm.2.2⟩

theorem unvisited_eq (hf : ¬f.Holds n) : unvisited (⟨n, none⟩ :: els) f = unvisited els f := by
  rw [unvisited, unvisited]
  congr 1
  ext m
  rw [Finset.mem_sdiff, Finset.mem_sdiff, List.mem_toFinset, List.mem_toFinset, visited_cons_none,
    List.mem_cons, not_or]
  refine ⟨fun ⟨hm, hne⟩ => ⟨hm, hne.2⟩, fun ⟨hm, hne⟩ => ⟨hm, ?_, hne⟩⟩
  rintro rfl
  exact hf (Finset.mem_Ico.mp hm)

/-! ## Nested bodies -/

/-- Bodies opened one within the other, the innermost first: each is a region of its own
that lies behind the outer ones, and is left to a rule end in the body around it.  No other
links lead to rule ends. -/
inductive Nested (graph : Graph) (g : Grammar) : List Frame → Prop
  | base : .ofGrammar g ≤ graph → Nested graph g [Frame.base g]
  | cons {f f' : Frame} {fs : List Frame} {ident : Option String} : Nested graph g (f :: fs) →
      graph.Region f'.lo f'.hi f'.stop → graph.EndsApart f'.lo f'.hi → f.hi ≤ f'.lo →
      f.Holds f'.stop → graph.kind f'.stop = .ruleEnd f'.rule ident → f'.rule < g.rules.length →
      Nested graph g (f' :: f :: fs)

theorem region_base (g : Grammar) : (Graph.ofGrammar g).Region 0 2 0 where
  lt := Nat.zero_lt_two
  le := le_refl 2
  targets id _ _ n hn := by
    rw [Graph.targets_ofGrammar] at hn
    exact absurd hn List.not_mem_nil
  stops id rule ident s _ _ hk := by
    match id, hk with
    | 1, hk =>
      obtain ⟨rfl, rfl, rfl⟩ := NodeKind.ruleStart.inj hk
      exact ⟨le_refl 0, Nat.zero_lt_two, rfl⟩
    | n + 2, hk =>
      rw [Graph.kind_of_size_le (Nat.le_add_left 2 n)] at hk
      exact absurd hk (by simp)

namespace Nested

/-- The innermost body is a region of its own. -/
theorem region (h : Nested graph g (f :: fs)) : graph.Region f.lo f.hi f.stop := by
  cases h with
  | base hbase => exact (region_base g).of_le hbase
  | cons _ hregion => exact hregion

theorem endsApart (h : Nested graph g (f :: fs)) : graph.EndsApart f.lo f.hi := by
  cases h with
  | base hbase => exact (Graph.endsApart_ofGrammar g).of_le hbase (le_refl 2)
  | cons _ _ hapart => exact hapart

theorem of_le (hle : a ≤ b) (h : Nested a g frames) : Nested b g frames := by
  induction h with
  | base hbase => exact .base (le_trans hbase hle)
  | cons hnested hregion hapart hbehind hstop hkind hrule ih =>
    rw [← Graph.kind_of_le hle (lt_of_lt_of_le hstop.2 hnested.region.le)] at hkind
    exact .cons ih (hregion.of_le hle) (hapart.of_le hle hregion.le) hbehind hstop hkind hrule

/-- A body that lies within another one is left to the end of its rule. -/
theorem kind_stop {f' : Frame} (h : Nested graph g (f' :: f :: fs)) :
    ∃ ident, graph.kind f'.stop = .ruleEnd f'.rule ident := by
  cases h with
  | cons _ _ _ _ _ hkind => exact ⟨_, hkind⟩

theorem two_le_hi (h : Nested graph g (f :: fs)) : 2 ≤ f.hi := by
  generalize hframes : f :: fs = frames at h
  induction h generalizing f fs with
  | base =>
    obtain ⟨rfl, -⟩ := List.cons.inj hframes
    exact le_refl 2
  | cons _ hregion _ hbehind _ _ _ ih =>
    obtain ⟨rfl, -⟩ := List.cons.inj hframes
    exact le_trans (ih rfl) (le_trans hbehind (le_of_lt hregion.lt))

/-- A node of the innermost body is in no other one. -/
theorem not_holds (h : Nested graph g (f :: fs)) (hn : f.lo ≤ n) : ∀ f' ∈ fs, ¬f'.Holds n := by
  generalize hframes : f :: fs = frames at h
  induction h generalizing f fs with
  | base =>
    obtain ⟨-, rfl⟩ := List.cons.inj hframes
    exact fun f' hf' => absurd hf' List.not_mem_nil
  | @cons f₁ f₂ fs₁ ident hnested hregion hapart hbehind hstop hkind hrule ih =>
    obtain ⟨rfl, rfl⟩ := List.cons.inj hframes
    intro f' hf'
    have hle : f₁.hi ≤ n := le_trans hbehind hn
    rcases List.mem_cons.mp hf' with rfl | hf'
    · exact fun hholds => absurd hholds.2 (not_lt.mpr hle)
    · exact ih (le_trans (le_of_lt hnested.region.lt) hle) rfl f' hf'

/-- Nothing leads out of the ends of the root rule, so a body that is left lies within another
one. -/
theorem exists_outer (h : Nested graph g (f :: fs)) {id : NodeId} (hid : f.Holds id)
    (hn : n ∈ graph.targets id) : ∃ f' fs', fs = f' :: fs' := by
  cases h with
  | base hbase =>
    rw [Graph.targets_of_le hbase hid.2, Graph.targets_ofGrammar] at hn
    exact absurd hn List.not_mem_nil
  | cons => exact ⟨_, _, rfl⟩

end Nested

/-- How a step from a node of the innermost body changes the bodies that are open. -/
inductive Moves (a : Graph) (g : Grammar) (id n : NodeId) (b : Graph) :
    List Frame → List Frame → Prop
  /-- The step stays within the body. -/
  | inside {f : Frame} {fs : List Frame} : b = a → n ∈ a.targets id → f.Holds n →
      (a.kind n).isRuleEnd = false → Moves a g id n b (f :: fs) (f :: fs)
  /-- The body is left to the end of its rule, which is a node of the body around it. -/
  | leave {f f' : Frame} {fs : List Frame} : b = a → n ∈ a.targets id → f'.stop = n →
      Moves a g id n b (f' :: f :: fs) (f :: fs)
  /-- A rule start is left to the entry of a fresh body. -/
  | enter {f f' : Frame} {fs : List Frame} {ident : Option String} :
      a.kind id = .ruleStart f'.rule ident f'.stop → f'.lo = n → b.kind n = .junction →
      Nested b g (f' :: f :: fs) → Moves a g id n b (f :: fs) (f' :: f :: fs)

theorem lt_length_of_expand? {rule : RuleId} (h : (g.expand? rule).isSome = true) :
    rule < g.rules.length := by
  by_contra hlt
  rw [Grammar.expand?, Grammar.rule?, List.getElem?_eq_none (not_lt.mp hlt)] at h
  exact absurd h (by simp)

theorem Nested.exists_moves {id : NodeId} {ctx : Context} {next : List NodeId} (hg : g.EndsApart)
    (h : Nested a g (f :: fs)) (hid : f.Holds id) (hleaves : a.Leaves g id ctx next b)
    (hn : n ∈ next) : ∃ frames, Moves a g id n b (f :: fs) frames := by
  rcases hleaves.mem_targets_or_entry hn with ⟨hn, rfl⟩ |
    ⟨rfl, rule, ident, stop, hk, hexpand, hbody⟩
  · rcases h.region.targets id hid.1 hid.2 n hn with rfl | ⟨hlo, hhi⟩
    · obtain ⟨f', fs, rfl⟩ := h.exists_outer hid hn
      exact ⟨_, .leave rfl hn rfl⟩
    · exact ⟨_, .inside rfl hn ⟨hlo, hhi⟩ (h.endsApart id hid.1 hid.2 n hn hlo hhi)⟩
  · obtain ⟨hlo, hhi, hstop⟩ := h.region.stops id rule ident stop hid.1 hid.2 hk
    have hlt : stop < a.size := lt_of_lt_of_le hhi h.region.le
    rw [← Graph.kind_of_le hbody.le hlt] at hstop
    have hnested : Nested b g (⟨rule, a.size, b.size, stop⟩ :: f :: fs) :=
      .cons (h.of_le hbody.le) hbody.region (hleaves.endsApart hg hk hlt) h.region.le
        ⟨hlo, hhi⟩ hstop (lt_length_of_expand? hexpand)
    exact ⟨_, .enter hk rfl hbody.entry hnested⟩

/-- The open bodies along a path, the innermost first, and how many of them were
opened since the last token. -/
inductive Framed (graph : Graph) (g : Grammar) : List PathElement → List Frame → ℕ → Prop
  | base : .ofGrammar g ≤ graph → Framed graph g [⟨Graph.root, none⟩] [.base g] 0
  /-- A step within the innermost body.  A rule that is opened is not open since the last token. -/
  | inside {els : List PathElement} {e : PathElement} {f : Frame} {fs : List Frame} {fresh : ℕ} :
      Framed graph g els (f :: fs) fresh → f.Holds e.node → (graph.kind e.node).isRuleEnd = false →
      (∀ rule, (graph.kind e.node).startedRule? = some rule →
        rule ∉ ((f :: fs).take fresh).map (·.rule)) →
      (e.token.isSome = true → (graph.kind e.node).isSlot = true) →
      Framed graph g (e :: els) (f :: fs) (if e.token.isSome then 0 else fresh)
  /-- A step from a rule start into the body that it wired. -/
  | enter {els : List PathElement} {p : PathElement} {f f' : Frame} {fs : List Frame} {fresh : ℕ}
      {ident : Option String} :
      Framed graph g (p :: els) (f :: fs) fresh →
        graph.kind p.node = .ruleStart f'.rule ident f'.stop → p.token = none →
      f'.rule ∉ ((f :: fs).take fresh).map (·.rule) → graph.kind f'.lo = .junction →
      Nested graph g (f' :: f :: fs) →
      Framed graph g (⟨f'.lo, none⟩ :: p :: els) (f' :: f :: fs) (fresh + 1)
  /-- A step from the innermost body to the end of its rule. -/
  | leave {els : List PathElement} {f f' : Frame} {fs : List Frame} {fresh : ℕ} :
      Framed graph g els (f' :: f :: fs) fresh →
        Framed graph g (⟨f'.stop, none⟩ :: els) (f :: fs) (fresh - 1)

namespace Framed

theorem nested (h : Framed graph g els frames fresh) : Nested graph g frames := by
  induction h with
  | base hbase => exact .base hbase
  | inside _ _ _ _ _ ih => exact ih
  | enter _ _ _ _ _ hnested _ => exact hnested
  | leave _ ih =>
    cases ih with
    | cons hnested => exact hnested

/-- The tip is in the innermost body. -/
theorem holds_tip (h : Framed graph g els frames fresh) :
    ∃ tip rest f fs, els = tip :: rest ∧ frames = f :: fs ∧ f.Holds tip.node := by
  cases h with
  | base => exact ⟨_, _, _, _, rfl, rfl, Nat.zero_le _, Nat.one_lt_two⟩
  | inside _ hholds => exact ⟨_, _, _, _, rfl, rfl, hholds⟩
  | enter _ _ _ _ _ hnested => exact ⟨_, _, _, _, rfl, rfl, le_refl _, hnested.region.lt⟩
  | leave hframed =>
    cases hframed.nested with
    | cons _ _ _ _ hstop => exact ⟨_, _, _, _, rfl, rfl, hstop⟩

/-- All nodes of a path are in the arena, so it can be extended. -/
theorem of_le (hle : a ≤ b) (h : Framed a g els frames fresh) : Framed b g els frames fresh := by
  have hkind : ∀ {f : Frame} {fs : List Frame} {n : NodeId}, Nested a g (f :: fs) → f.Holds n →
      b.kind n = a.kind n := by
    intro f fs n hnested hn
    exact Graph.kind_of_le hle (lt_of_lt_of_le hn.2 hnested.region.le)
  induction h with
  | base hbase => exact .base (le_trans hbase hle)
  | inside hframed hholds hend hrule hslot ih =>
    have hk := hkind hframed.nested hholds
    exact .inside ih hholds (by rwa [hk]) (by rwa [hk]) (by rwa [hk])
  | enter hframed hk htoken hrule hentry hnested ih =>
    obtain ⟨tip, rest, f, fs, hels, hframes, hholds⟩ := hframed.holds_tip
    obtain ⟨rfl, -⟩ := List.cons.inj hels
    obtain ⟨rfl, rfl⟩ := List.cons.inj hframes
    rw [← hkind hframed.nested hholds] at hk
    rw [← hkind hnested ⟨le_refl _, hnested.region.lt⟩] at hentry
    exact .enter ih hk htoken hrule hentry (hnested.of_le hle)
  | leave _ ih => exact .leave ih

/-! ## Rules that are open since the last token -/

theorem fresh_lt (h : Framed graph g els frames fresh) : fresh < frames.length := by
  induction h with
  | base => exact Nat.zero_lt_one
  | inside _ _ _ _ _ ih =>
    split
    · exact Nat.zero_lt_succ _
    · exact ih
  | enter _ _ _ _ _ _ ih => exact Nat.succ_lt_succ ih
  | leave _ ih =>
    rw [List.length_cons] at ih ⊢
    rw [List.length_cons] at ih
    omega

/-- No rule was entered twice since the last token without being left. -/
theorem nodup_fresh (h : Framed graph g els frames fresh) :
    ((frames.take fresh).map (·.rule)).Nodup := by
  induction h with
  | base => exact List.nodup_nil
  | inside _ _ _ _ _ ih =>
    split
    · exact List.nodup_nil
    · exact ih
  | enter _ _ _ hrule _ _ ih => exact List.nodup_cons.mpr ⟨hrule, ih⟩
  | @leave els f f' fs fresh _ ih =>
    cases fresh with
    | zero => exact List.nodup_nil
    | succ fresh => exact (List.nodup_cons.mp ih).2

end Framed

/-- All bodies but the outermost one come from a rule of the grammar. -/
theorem Nested.rule_lt (h : Nested graph g frames) :
    ∀ k < frames.length, ∀ f ∈ frames.take k, f.rule < g.rules.length := by
  induction h with
  | base =>
    intro k hk f hf
    obtain rfl : k = 0 := Nat.lt_one_iff.mp hk
    exact absurd hf List.not_mem_nil
  | cons _ _ _ _ _ _ hrule ih =>
    intro k hk f hf
    cases k with
    | zero => exact absurd hf List.not_mem_nil
    | succ k =>
      rcases List.mem_cons.mp hf with rfl | hf
      · exact hrule
      · exact ih k (Nat.lt_of_succ_lt_succ hk) f hf

namespace Framed

/-- No more bodies were opened since the last token than there are rules. -/
theorem fresh_le (h : Framed graph g els frames fresh) : fresh ≤ g.rules.length := by
  have hlength : ((frames.take fresh).map (·.rule)).length = fresh := by
    rw [List.length_map, List.length_take, min_eq_left (le_of_lt h.fresh_lt)]
  have hsubset : ((frames.take fresh).map (·.rule)).toFinset ⊆ Finset.range g.rules.length := by
    intro rule hrule
    obtain ⟨f, hf, rfl⟩ := List.mem_map.mp (List.mem_toFinset.mp hrule)
    exact Finset.mem_range.mpr (h.nested.rule_lt fresh h.fresh_lt f hf)
  have hcard := Finset.card_le_card hsubset
  rwa [List.toFinset_card_of_nodup h.nodup_fresh, hlength, Finset.card_range] at hcard

/-- A rule that was opened since the last token, more often than what follows closes
it, is not entered again. -/
theorem revisits_of_open {rule : RuleId} (h : Framed graph g els frames fresh)
    (hn : (graph.kind n).startedRule? = some rule) : ∀ {closed : Nat},
    closed < ((frames.take fresh).map (·.rule)).count rule →
    revisitsIn graph n closed els = true := by
  induction h with
  | base => exact fun hclosed => absurd hclosed (Nat.not_lt_zero _)
  | @inside els e f fs fresh _ _ hend hrule _ ih =>
    intro closed hclosed
    split at hclosed
    · exact absurd hclosed (Nat.not_lt_zero _)
    next htoken =>
    have hnone : e.token = none := by simpa using htoken
    by_cases hne : e.node = n
    · exact hne ▸ revisitsIn_self hnone
    cases hstart : (graph.kind e.node).startedRule? with
    | none =>
      rw [revisitsIn_skip hn hnone hend hstart hne]
      exact ih hclosed
    | some rule' =>
      rw [revisitsIn_of_starts hn hnone hstart hne]
      split
      · cases closed with
        | zero => rfl
        | succ closed => exact ih (Nat.lt_of_succ_lt hclosed)
      · exact ih hclosed
  | @enter els p f f' fs fresh ident hframed hk htoken hrule hentry _ ih =>
    intro closed hclosed
    by_cases hne : f'.lo = n
    · exact hne ▸ revisitsIn_self (e := ⟨f'.lo, none⟩) rfl
    rw [revisitsIn_skip hn rfl (by rw [hentry]; rfl) (by rw [hentry]; rfl) hne]
    rw [List.take_succ_cons, List.map_cons] at hclosed
    by_cases heq : f'.rule = rule
    · -- The body was entered from the start of the rule itself.
      rw [heq] at hrule
      rw [heq, List.count_cons_self, List.count_eq_zero_of_not_mem hrule] at hclosed
      obtain rfl : closed = 0 := Nat.lt_one_iff.mp hclosed
      by_cases hnode : p.node = n
      · exact hnode ▸ revisitsIn_self htoken
      · rw [revisitsIn_of_starts hn htoken (by rw [hk]; rfl) hnode, if_pos heq]
    · rw [List.count_cons_of_ne heq] at hclosed
      exact ih hclosed
  | @leave els f f' fs fresh hframed ih =>
    intro closed hclosed
    cases fresh with
    | zero => exact absurd hclosed (Nat.not_lt_zero _)
    | succ fresh =>
      obtain ⟨ident, hkind⟩ := hframed.nested.kind_stop
      rw [List.take_succ_cons, List.map_cons] at ih
      by_cases hne : f'.stop = n
      · exact hne ▸ revisitsIn_self (e := ⟨f'.stop, none⟩) rfl
      rw [revisitsIn_of_ends hn rfl (by rw [hkind]; rfl) hne]
      apply ih
      split
      · next heq =>
        rw [heq, List.count_cons_self]
        exact Nat.succ_lt_succ hclosed
      · exact lt_of_lt_of_le hclosed (List.Sublist.count_le _ (List.sublist_cons_self _ _))

/-- A rule start that was stepped onto enters a rule that is not open since the last token. -/
theorem not_open_of_ruleStart {rule : RuleId} {ident : Option String} {stop : NodeId}
    (h : Framed graph g (e :: els) frames fresh)
    (hk : graph.kind e.node = .ruleStart rule ident stop) :
    e.token = none ∧ rule ∉ (frames.take fresh).map (·.rule) := by
  cases h with
  | base => exact ⟨rfl, List.not_mem_nil⟩
  | inside _ _ _ hrule hslot =>
    rw [hk] at hslot
    have hnone : ¬e.token.isSome = true :=
      fun hsome => absurd (hslot hsome) (by simp [NodeKind.isSlot])
    rw [if_neg hnone]
    exact ⟨by simpa using hnone, hrule rule (by rw [hk]; rfl)⟩
  | enter _ _ _ _ hentry => exact absurd (hentry.symm.trans hk) (by simp)
  | leave hframed =>
    obtain ⟨_, hkind⟩ := hframed.nested.kind_stop
    exact absurd (hkind.symm.trans hk) (by simp)

end Framed

/-! ## The stack of a path -/

/-- For each open body, the innermost first, how many more bodies can be opened within it before the
next token, and how many of its nodes can be visited. -/
def profile (rules : ℕ) (els : List PathElement) : ℕ → List Frame → List (ℕ × ℕ)
  | _, [] => []
  | fresh, f :: fs => (rules - fresh, unvisited els f) :: profile rules els (fresh - 1) fs

theorem profile_eq {rules : ℕ} : ∀ {fresh : ℕ} {fs : List Frame}, (∀ f ∈ fs, ¬f.Holds n) →
    profile rules (⟨n, none⟩ :: els) fresh fs = profile rules els fresh fs
  | _, [], _ => rfl
  | fresh, f :: fs, h => by
    rw [profile, profile, unvisited_eq (h f List.mem_cons_self),
      profile_eq fun f' hf' => h f' (List.mem_cons_of_mem _ hf')]

/-- A step onto a node that the path does not return to makes the stack lower. -/
theorem Framed.step {tip : PathElement} {ctx : Context} {next : List NodeId} (hg : g.EndsApart)
    (h : Framed a g els frames fresh) (htip : els.head? = some tip)
    (hsucc : a.successors g tip.node ctx = (some next, b)) (hn : n ∈ next)
    (hrev : revisitsIn b n 0 els = false) :
    ∃ frames' fresh', Framed b g (⟨n, none⟩ :: els) frames' fresh' ∧
      Stack.Lower (· < ·) (profile g.rules.length (⟨n, none⟩ :: els) fresh' frames')
        (profile g.rules.length els fresh frames) := by
  obtain ⟨tip', rest, f, fs, rfl, rfl, hholds⟩ := h.holds_tip
  obtain rfl := Option.some.inj htip
  have hvisited := not_mem_visited b hrev
  have hleaves := Graph.leaves_of_successors hsucc
  have hb := h.of_le hleaves.le
  obtain ⟨frames', hmoves⟩ := h.nested.exists_moves hg hholds hleaves hn
  cases hmoves with
  | inside hgraph _ hn hend =>
    subst hgraph
    refine ⟨f :: fs, fresh, ?_, ?_⟩
    · refine hb.inside hn hend ?_ nofun
      intro rule hrule hmem
      have hopen := h.revisits_of_open hrule (List.count_pos_iff.mpr hmem)
      rw [hopen] at hrev
      exact absurd hrev (by simp)
    · rw [profile, profile, profile_eq (h.nested.not_holds hn.1)]
      exact .retry (.intro [] (unvisited_lt hn hvisited) (.inl rfl))
  | @leave f' _ fs hgraph _ hstop =>
    subst hgraph hstop
    have houter : Nested b g (f' :: fs) ∧ f'.Holds f.stop := by
      cases h.nested with
      | cons hnested _ _ _ hstop => exact ⟨hnested, hstop⟩
    refine ⟨f' :: fs, fresh - 1, hb.leave, ?_⟩
    rw [profile, profile, profile, profile_eq (houter.1.not_holds houter.2.1)]
    exact .retry (.intro [_] (unvisited_lt houter.2 hvisited) (.inl rfl))
  | @enter _ f' fs ident hk hlo hentry hnested =>
    subst hlo
    obtain ⟨htoken, hrule⟩ := h.not_open_of_ruleStart hk
    rw [← Graph.kind_of_le hleaves.le (lt_of_lt_of_le hholds.2 h.nested.region.le)] at hk
    have hframed : Framed b g (⟨f'.lo, none⟩ :: tip' :: rest) (f' :: f :: fs) (fresh + 1) :=
      .enter hb hk htoken hrule hentry hnested
    refine ⟨_, _, hframed, ?_⟩
    rw [profile, Nat.add_sub_cancel, profile_eq (hnested.not_holds (le_refl _)), profile]
    exact .push (Nat.sub_lt_sub_left hframed.fresh_le (Nat.lt_succ_self fresh))

end Path

end GrammarGraph
