import GrammarGraph.Proofs.Replay

/-!
# Descents

A descent with a token looks for a slot that takes it, a descent without one for the end of the root
rule.  Both walk alike (`Search.descendFor`): they step onto nodes in turn until they arrive
(`Search.Arrives`), or have tried all there is and stand where they started (`Search.Fails`).
-/

namespace GrammarGraph

namespace Search

variable {g : Grammar} {s s' : Search} {token : Option Token} {tip : PathElement} {n : NodeId}
  {blocked : Search → NodeId → Bool} {visit visit' : Search → Option (Bool × Search)}

/-- The type of token that the tip waits for, if it is a slot that has none yet. -/
def expected? (s : Search) : Option TokenType :=
  s.path.tip?.bind fun tip =>
    match s.graph.kind tip.node, tip.token with
    | .slot type _ _, none => some type
    | _, _ => none

/-- Nodes that a descent does not step onto: those that the path would return to, and slots if
there is no token left. -/
def barred (token : Option Token) (s : Search) (n : NodeId) : Bool :=
  token.isNone && (s.graph.kind n).isSlot || s.path.revisits s.graph n

/-- The descent with a token, or to the end. -/
def descendFor (g : Grammar) : Option Token → Nat → Search → Option (Bool × Search)
  | some t => descend g t
  | none => descendToEnd g

/-! ## One level -/

theorem descendFor_zero : descendFor g token 0 s = none := by
  cases token <;> rfl

theorem descendFor_of_isEmpty (fuel : Nat) (h : s.path.tip? = none) :
    descendFor g token (fuel + 1) s = some (false, s) := by
  cases token <;> simp only [descendFor, descend, descendToEnd, h]

theorem isSlot_of_expected? {type : TokenType} (ht : s.path.tip? = some tip)
    (he : s.expected? = some type) :
    tip.token = none ∧ ∃ ident hook, s.graph.kind tip.node = .slot type ident hook := by
  rw [expected?, ht, Option.bind_some] at he
  split at he
  · next hk hn =>
    obtain rfl := Option.some.inj he
    exact ⟨hn, _, _, hk⟩
  · exact absurd he (by simp)

/-- A slot that waits takes the token if it has the type, and nothing else. -/
theorem descendFor_of_expected {type : TokenType} (fuel : Nat) (ht : s.path.tip? = some tip)
    (he : s.expected? = some type) : descendFor g token (fuel + 1) s =
      if token.any (·.hasType type.id) then some (true, s.pop.push g tip.node token)
      else some (false, s) := by
  obtain ⟨hn, ident, hook, hk⟩ := isSlot_of_expected? ht he
  cases token with
  | none => simp [descendFor, descendToEnd, ht, hk, hn, NodeKind.isSlot]
  | some t => simp only [descendFor, descend, ht, hk, hn, Option.any_some]

/-- Any other tip is left for one of its successors. -/
theorem descendFor_of_leave (fuel : Nat) (ht : s.path.tip? = some tip) (he : s.expected? = none) :
    descendFor g token (fuel + 1) s =
      leave g token (token.isNone &&
        (s.graph.kind tip.node).isRuleEnd) (barred token) (descendFor g token fuel) tip.node s := by
  rw [expected?, ht, Option.bind_some] at he
  cases token with
  | none =>
    have hslot : ((s.graph.kind tip.node).isSlot && tip.token.isNone) = false := by
      cases hk : s.graph.kind tip.node <;> cases hn : tip.token <;> rw [hk, hn] at he <;>
        first | rfl | exact absurd he (by simp)
    simp only [descendFor, descendToEnd, ht, hslot]
    rfl
  | some t =>
    simp only [descendFor, descend, ht]
    split
    · next hk hn =>
      rw [hk, hn] at he
      exact absurd he (by simp)
    · rfl

/-- A descent does not come back if the one from its first successor does not. -/
theorem descendFor_eq_none {behind : List NodeId} {graph : Graph} {levels : ℕ}
    (ht : s.path.tip? = some tip) (he : s.expected? = none)
    (hsucc : s.graph.successors g tip.node ⟨s.path, token⟩ = (some (n :: behind), graph))
    (hn : barred token { s with graph } n = false)
    (h : descendFor g token levels (push g { s with graph } n none) = none) :
    descendFor g token (levels + 1) s = none := by
  rw [descendFor_of_leave levels ht he, leave, hsucc]
  simp only [List.isEmpty_cons, Bool.false_and, Bool.false_eq_true, if_false, tryEach, hn, h]

theorem descendFor_eq_none_of_wired {kind : NodeKind} {behind : List NodeId}
    {levels : ℕ} (ht : s.path.tip? = some tip) (hk : s.graph.kind tip.node = kind)
    (hkind : kind.isPlain = true ∧ kind.isSlot = false)
    (hwired : s.graph.wired tip.node = n :: behind) (hn : barred token s n = false)
    (h : descendFor g token levels (s.push g n none) = none) :
    descendFor g token (levels + 1) s = none := by
  have hsucc := Graph.successors_of_isPlain g (hk ▸ hkind.1) ⟨s.path, token⟩
  rw [hwired] at hsucc
  refine descendFor_eq_none ht ?_ hsucc hn h
  rw [expected?, ht, Option.bind_some, hk]
  cases kind <;> first | rfl | exact absurd hkind.2 nofun

/-! ## Trying nodes in turn -/

/-- Where `visit` fails it leaves the search as it was, and `F` holds there. -/
def FailsInPlace (visit : Search → Option (Bool × Search)) (F : Search → Prop) : Prop :=
  ∀ s s', 2 ≤ s.graph.size → visit s = some (false, s') → s' = s ∧ F s

theorem tryEach_false {F : Search → Prop} (hv : FailsInPlace visit F) {ns : List NodeId}
    (hs : 2 ≤ s.graph.size) (h : tryEach g blocked visit ns s = some (false, s')) :
    s' = s ∧ ∀ n ∈ ns, blocked s n = false → F (s.push g n none) := by
  induction ns with
  | nil =>
    obtain rfl : s = s' := by simpa [tryEach] using h
    exact ⟨rfl, fun n hn => absurd hn List.not_mem_nil⟩
  | cons n ns ih =>
    rw [tryEach] at h
    split at h
    · next hb =>
      obtain ⟨rfl, hns⟩ := ih h
      refine ⟨rfl, ?_⟩
      intro m hm hm'
      rcases List.mem_cons.mp hm with rfl | hm
      · rw [hb] at hm'
        exact absurd hm' (by simp)
      · exact hns m hm hm'
    · split at h
      · exact absurd h (by simp)
      · exact absurd h (by simp)
      · next t hvisit =>
        obtain ⟨rfl, hF⟩ := hv (s.push g n none) t hs hvisit
        rw [pop_push_none] at h
        obtain ⟨rfl, hns⟩ := ih h
        refine ⟨rfl, ?_⟩
        intro m hm hm'
        rcases List.mem_cons.mp hm with rfl | hm
        · exact hF
        · exact hns m hm hm'

/-- The node found is the first one that is neither blocked nor fails. -/
theorem tryEach_true {F : Search → Prop} (hv : FailsInPlace visit F) {ns : List NodeId}
    (hs : 2 ≤ s.graph.size) (h : tryEach g blocked visit ns s = some (true, s')) :
    ∃ before n behind, ns = before ++ n :: behind ∧
      (∀ m ∈ before, blocked s m = false → F (s.push g m none)) ∧ blocked s n = false ∧
      visit (s.push g n none) = some (true, s') := by
  induction ns with
  | nil => exact absurd h (by simp [tryEach])
  | cons n ns ih =>
    rw [tryEach] at h
    split at h
    · next hb =>
      obtain ⟨before, m, behind, rfl, hbefore, hm⟩ := ih h
      refine ⟨n :: before, m, behind, rfl, fun k hk hk' => ?_, hm⟩
      rcases List.mem_cons.mp hk with rfl | hk
      · rw [hb] at hk'
        exact absurd hk' (by simp)
      · exact hbefore k hk hk'
    · next hb =>
      split at h
      · exact absurd h (by simp)
      · next t hvisit =>
        obtain rfl : t = s' := by simpa using h
        exact ⟨[], n, ns, rfl, fun m hm => absurd hm List.not_mem_nil, Bool.eq_false_iff.mpr hb,
          hvisit⟩
      · next t hvisit =>
        obtain ⟨rfl, hF⟩ := hv (s.push g n none) t hs hvisit
        rw [pop_push_none] at h
        obtain ⟨before, m, behind, rfl, hbefore, hm⟩ := ih h
        refine ⟨n :: before, m, behind, rfl, fun k hk hk' => ?_, hm⟩
        rcases List.mem_cons.mp hk with rfl | hk
        · exact hF
        · exact hbefore k hk hk'

/-! ## What a descent comes to -/

/-- The descent gets nowhere: the slot refuses the token, the tip cannot be left, or every successor
that may be stepped onto fails. -/
inductive Fails (g : Grammar) (token : Option Token) : Search → Prop
  | astray {s : Search} : s.path.tip? = none → Fails g token s
  | refused {s : Search} {tip : PathElement} {type : TokenType} : s.path.tip? = some tip →
      s.expected? = some type → token.any (·.hasType type.id) = false → Fails g token s
  | closed {s : Search} {tip : PathElement} : s.path.tip? = some tip → s.expected? = none →
      (s.graph.successors g tip.node ⟨s.path, token⟩).1 = none → Fails g token s
  | exhausted {s : Search} {tip : PathElement} {next : List NodeId} {graph : Graph} :
      s.path.tip? = some tip → s.expected? = none →
      s.graph.successors g tip.node ⟨s.path, token⟩ = (some next, graph) →
      (next = [] → (token.isNone && (s.graph.kind tip.node).isRuleEnd) = false) →
      (∀ n ∈ next, barred token { s with graph } n = false →
        Fails g token (push g { s with graph } n none)) → Fails g token s

/-- How a descent arrives: the slot takes the token, the root rule is complete, or the first
successor that does not fail arrives. -/
inductive Arrives (g : Grammar) (token : Option Token) : Search → Search → Prop
  | taken {s : Search} {tip : PathElement} {type : TokenType} : s.path.tip? = some tip →
      s.expected? = some type → token.any (·.hasType type.id) = true →
      Arrives g token s (s.pop.push g tip.node token)
  | complete {s : Search} {tip : PathElement} {graph : Graph} : s.path.tip? = some tip →
      s.expected? = none → s.graph.successors g tip.node ⟨s.path, token⟩ = (some [], graph) →
      (token.isNone && (s.graph.kind tip.node).isRuleEnd) = true →
      Arrives g token s { s with graph }
  | step {s s' : Search} {tip : PathElement} {graph : Graph} {before behind : List NodeId}
      {n : NodeId} : s.path.tip? = some tip → s.expected? = none →
      s.graph.successors g tip.node ⟨s.path, token⟩ = (some (before ++ n :: behind), graph) →
      (∀ m ∈ before, barred token { s with graph } m = false →
        Fails g token (push g { s with graph } m none)) →
      barred token { s with graph } n = false →
      Arrives g token (push g { s with graph } n none) s' → Arrives g token s s'

theorem successors_le {ctx : Context} {id : NodeId} {graph graph' : Graph}
    {next : Option (List NodeId)} (h : graph.successors g id ctx = (next, graph')) :
    graph ≤ graph' := by
  cases next with
  | none => exact le_of_eq (Graph.successors_none h).symm
  | some next => exact (Graph.leaves_of_successors h).le

/-- A descent that fails leaves the search, its arena included, as it was. -/
theorem failsInPlace_descendFor (g : Grammar) (token : Option Token) :
    ∀ fuel, FailsInPlace (descendFor g token fuel) (Fails g token)
  | 0 => fun s s' _ h => by
    rw [descendFor_zero] at h
    exact absurd h (by simp)
  | fuel + 1 => fun s s' hs h => by
    cases ht : s.path.tip? with
    | none =>
      rw [descendFor_of_isEmpty fuel ht] at h
      obtain rfl : s = s' := by simpa using h
      exact ⟨rfl, .astray ht⟩
    | some tip =>
      cases he : s.expected? with
      | some type =>
        rw [descendFor_of_expected fuel ht he] at h
        split at h
        · exact absurd h (by simp)
        · next hany =>
          obtain rfl : s = s' := by simpa using h
          exact ⟨rfl, .refused ht he (Bool.eq_false_iff.mpr hany)⟩
      | none =>
        rw [descendFor_of_leave fuel ht he, leave] at h
        split at h
        · next graph hsucc =>
          obtain rfl : _ = s' := (Prod.mk.inj (Option.some.inj h)).2
          rw [Graph.truncate_of_le (successors_le hsucc) hs]
          exact ⟨rfl, .closed ht he (by rw [hsucc])⟩
        · next next graph hsucc =>
          have hle := successors_le hsucc
          split at h
          · exact absurd h (by simp)
          · next hdead =>
            split at h
            · exact absurd h (by simp)
            · exact absurd h (by simp)
            · next t htry =>
              obtain rfl : _ = s' := (Prod.mk.inj (Option.some.inj h)).2
              obtain ⟨rfl, hns⟩ := tryEach_false (failsInPlace_descendFor g token fuel)
                (le_trans hs hle.1) htry
              refine ⟨?_, .exhausted ht he hsucc (fun hnil => ?_) hns⟩
              · simp only [Graph.truncate_of_le hle hs]
              · rw [hnil] at hdead
                simpa using hdead

theorem arrives_of_descendFor : ∀ {fuel : Nat} {s : Search}, 2 ≤ s.graph.size →
    descendFor g token fuel s = some (true, s') → Arrives g token s s'
  | 0, s, _, h => by
    rw [descendFor_zero] at h
    exact absurd h (by simp)
  | fuel + 1, s, hs, h => by
    cases ht : s.path.tip? with
    | none =>
      rw [descendFor_of_isEmpty fuel ht] at h
      exact absurd h (by simp)
    | some tip =>
      cases he : s.expected? with
      | some type =>
        rw [descendFor_of_expected fuel ht he] at h
        split at h
        · next hany =>
          obtain rfl : _ = s' := by simpa using h
          exact .taken ht he hany
        · exact absurd h (by simp)
      | none =>
        rw [descendFor_of_leave fuel ht he, leave] at h
        split at h
        · exact absurd h (by simp)
        · next next graph hsucc =>
          have hgraph : 2 ≤ graph.size := le_trans hs (successors_le hsucc).1
          split at h
          · next hdead =>
            obtain rfl : _ = s' := (Prod.mk.inj (Option.some.inj h)).2
            rw [Bool.and_eq_true, List.isEmpty_iff] at hdead
            obtain ⟨rfl, hdead⟩ := hdead
            exact .complete ht he hsucc hdead
          · split at h
            · exact absurd h (by simp)
            · next t htry =>
              obtain rfl : s' = t := by simpa using h.symm
              obtain ⟨before, n, behind, rfl, hbefore, hn, hvisit⟩ :=
                tryEach_true (failsInPlace_descendFor g token fuel) hgraph htry
              exact .step ht he hsucc hbefore hn
                (arrives_of_descendFor (s := push g _ n none) hgraph hvisit)
            · exact absurd h (by simp)

/-! ## Levels -/

theorem tryEach_mono (hv : ∀ s r, visit s = some r → visit' s = some r) {r : Bool × Search}
    {ns : List NodeId} (h : tryEach g blocked visit ns s = some r) :
    tryEach g blocked visit' ns s = some r := by
  induction ns generalizing s with
  | nil => exact h
  | cons n ns ih =>
    rw [tryEach] at h ⊢
    split at h
    · next hb =>
      rw [if_pos hb]
      exact ih h
    · next hb =>
      rw [if_neg hb]
      split at h
      · exact absurd h (by simp)
      · next t hvisit =>
        rw [hv _ _ hvisit]
        exact h
      · next t hvisit =>
        rw [hv _ _ hvisit]
        exact ih h

/-- An answer does not change with more levels to spend. -/
theorem descendFor_mono {r : Bool × Search} {levels levels' : Nat} (hle : levels ≤ levels')
    (h : descendFor g token levels s = some r) : descendFor g token levels' s = some r := by
  induction levels generalizing levels' s r with
  | zero =>
    rw [descendFor_zero] at h
    exact absurd h (by simp)
  | succ levels ih =>
    obtain ⟨levels', rfl⟩ := Nat.exists_eq_add_one_of_ne_zero (Nat.ne_zero_of_lt hle)
    cases ht : s.path.tip? with
    | none =>
      rw [descendFor_of_isEmpty _ ht] at h ⊢
      exact h
    | some tip =>
      cases he : s.expected? with
      | some type =>
        rw [descendFor_of_expected _ ht he] at h ⊢
        exact h
      | none =>
        rw [descendFor_of_leave _ ht he, leave] at h ⊢
        split at h
        · exact h
        · next next graph hsucc =>
          split at h
          · next hdead =>
            rw [if_pos hdead]
            exact h
          · next hdead =>
            rw [if_neg hdead]
            have key : ∀ {r}, tryEach g (barred token) (descendFor g token levels)
                next { s with graph } = some r →
                tryEach g (barred token) (descendFor g token levels')
                next { s with graph } = some r :=
              tryEach_mono fun _ _ hv => ih (Nat.le_of_succ_le_succ hle) hv
            split at h
            · exact absurd h (by simp)
            · next t htry =>
              rw [key htry]
              exact h
            · next t htry =>
              rw [key htry]
              exact h

/-- With enough levels for each node there are enough for all of them in turn. -/
theorem isSome_tryEach {F : Search → Prop} (hv : FailsInPlace visit F) {ns : List NodeId}
    (hs : 2 ≤ s.graph.size) (h : ∀ n ∈ ns, blocked s n = false → (visit (s.push g n none)).isSome) :
    (tryEach g blocked visit ns s).isSome := by
  induction ns with
  | nil => rfl
  | cons n ns ih =>
    have hrest := ih fun m hm => h m (List.mem_cons_of_mem _ hm)
    rw [tryEach]
    split
    · exact hrest
    · next hb =>
      have hn := h n List.mem_cons_self (Bool.eq_false_iff.mpr hb)
      split
      · next hvisit =>
        rw [hvisit] at hn
        exact absurd hn (by simp)
      · rfl
      · next t hvisit =>
        obtain ⟨rfl, -⟩ := hv (s.push g n none) t hs hvisit
        rw [pop_push_none]
        exact hrest

/-- Levels that are enough for each of some nodes are, taken together, enough for all of them. -/
theorem exists_levels_of_forall {next : List NodeId} (h : ∀ n ∈ next, barred token s n = false →
      ∃ levels, (descendFor g token levels (s.push g n none)).isSome) :
    ∃ levels, ∀ n ∈ next, barred token s n = false →
      (descendFor g token levels (s.push g n none)).isSome := by
  induction next with
  | nil => exact ⟨0, fun n hn => absurd hn List.not_mem_nil⟩
  | cons n next ih =>
    obtain ⟨rest, hrest⟩ := ih fun m hm => h m (List.mem_cons_of_mem _ hm)
    by_cases hn : barred token s n = false
    · obtain ⟨first, hfirst⟩ := h n List.mem_cons_self hn
      refine ⟨max first rest, ?_⟩
      intro m hm hm'
      rcases List.mem_cons.mp hm with rfl | hm
      · obtain ⟨r, hr⟩ := Option.isSome_iff_exists.mp hfirst
        rw [descendFor_mono (le_max_left first rest) hr]
        rfl
      · obtain ⟨r, hr⟩ := Option.isSome_iff_exists.mp (hrest m hm hm')
        rw [descendFor_mono (le_max_right first rest) hr]
        rfl
    · refine ⟨rest, ?_⟩
      intro m hm hm'
      rcases List.mem_cons.mp hm with rfl | hm
      · exact absurd hm' hn
      · exact hrest m hm hm'

/-- A descent has enough levels if those behind each successor that it may step onto have. -/
theorem exists_levels_of_successors (hs : 2 ≤ s.graph.size)
    (h : ∀ tip next graph, s.path.tip? = some tip →
      s.graph.successors g tip.node ⟨s.path, token⟩ = (some next, graph) → ∀ n ∈ next,
      barred token { s with graph } n = false →
        ∃ levels, (descendFor g token levels (push g { s with graph } n none)).isSome) :
    ∃ levels, (descendFor g token levels s).isSome := by
  cases ht : s.path.tip? with
  | none =>
    refine ⟨1, ?_⟩
    rw [descendFor_of_isEmpty 0 ht]
    rfl
  | some tip =>
    cases he : s.expected? with
    | some type =>
      refine ⟨1, ?_⟩
      rw [descendFor_of_expected 0 ht he]
      split <;> rfl
    | none =>
      rcases hsucc : s.graph.successors g tip.node ⟨s.path, token⟩ with ⟨_ | next, graph⟩
      · refine ⟨1, ?_⟩
        rw [descendFor_of_leave 0 ht he, leave, hsucc]
        rfl
      · obtain ⟨levels, hlevels⟩ := exists_levels_of_forall (h tip next graph ht hsucc)
        refine ⟨levels + 1, ?_⟩
        rw [descendFor_of_leave levels ht he, leave, hsucc]
        simp only
        split
        · rfl
        · have htry := isSome_tryEach (failsInPlace_descendFor g token levels)
            (s := { s with graph }) (le_trans hs (successors_le hsucc).1) hlevels
          split
          · next hnone =>
            rw [hnone] at htry
            exact absurd htry (by simp)
          · rfl
          · rfl

end Search

end GrammarGraph
