import GrammarGraph.Proofs.Replay

/-!
# Stepping back to an alternative

Backtracking leaves the arena alone.  It looks at the elements of the path from the tip on
until one has an alternative, and the tokens of the elements it steps back over are pending
again (`Search.Retreats`).
-/

namespace GrammarGraph

namespace Graph

/-- The links of a plain node behind the one that leads to `id`.  Any other node has at most one
successor in a context, and so none behind it. -/
def later (graph : Graph) (parent id : NodeId) : List NodeId :=
  if (graph.kind parent).isPlain then ((graph.wired parent).dropWhile (· != id)).tail else []

variable {a b graph : Graph} {grammar : Grammar} {parent id n : NodeId} {ctx : Context}
  {next : List NodeId}

theorem later_of_le (h : a ≤ b) (hp : parent < a.size) : b.later parent id = a.later parent id := by
  simp only [later, kind_of_le h hp, wired_of_le h hp]

theorem mem_targets_of_mem_later (h : n ∈ graph.later parent id) : n ∈ graph.targets parent := by
  unfold later at h
  split at h
  · next hk =>
    rw [targets, NodeKind.targets_of_isPlain hk]
    exact (List.dropWhile_sublist _).subset (List.mem_of_mem_tail h)
  · exact absurd h List.not_mem_nil

/-- A later link is a successor in any context, and with it no node is wired. -/
theorem exists_successors_of_mem_later (h : n ∈ a.later parent id) (grammar : Grammar)
    (ctx : Context) : ∃ next, a.successors grammar parent ctx = (some next, a) ∧ n ∈ next := by
  unfold later at h
  split at h
  · next hk =>
    exact ⟨_, successors_of_isPlain grammar hk ctx,
      (List.dropWhile_sublist _).subset (List.mem_of_mem_tail h)⟩
  · exact absurd h List.not_mem_nil

theorem tail_dropWhile_of_length_le {α : Type} {l : List α} (p : α → Bool) (h : l.length ≤ 1) :
    (l.dropWhile p).tail = [] := by
  match l, h with
  | [], _ => rfl
  | [x], _ =>
    rw [List.dropWhile_cons]
    split <;> rfl

/-- Either the arena did not grow and the successors are all the links of a plain node, or there is
at most one successor. -/
theorem Leaves.plain_or_single (h : Leaves a grammar id ctx next b) :
    ((a.kind id).isPlain = true ∧ next = a.wired id ∧ b = a) ∨
      ((a.kind id).isPlain = false ∧ next.length ≤ 1) := by
  cases h with
  | enter hk | gate hk =>
    rw [hk]
    exact .inr ⟨rfl, le_refl 1⟩
  | switch hk =>
    rw [hk]
    exact .inr ⟨rfl, Option.length_toList_le⟩
  | wired hk => exact .inl ⟨hk, rfl, rfl⟩

/-- In any context the successors behind a node are its later links. -/
theorem Leaves.later_eq (h : Leaves a grammar parent ctx next b) (id : NodeId) :
    (next.dropWhile (· != id)).tail = a.later parent id ∧ (a.later parent id ≠ [] → b = a) := by
  rcases h.plain_or_single with ⟨hk, rfl, rfl⟩ | ⟨hk, hnext⟩
  · rw [later, if_pos hk]
    exact ⟨rfl, fun _ => rfl⟩
  · rw [later, hk, if_neg (by simp)]
    exact ⟨tail_dropWhile_of_length_le _ hnext, fun h => absurd rfl h⟩

theorem tail_dropWhile_append {before behind : List NodeId} (h : (before ++ n :: behind).Nodup) :
    ((before ++ n :: behind).dropWhile (· != n)).tail = behind := by
  have hbefore : ∀ m ∈ before, (m != n) = true := by
    intro m hm
    simpa using (List.nodup_append.mp h).2.2 m hm n List.mem_cons_self
  rw [List.dropWhile_append_of_pos hbefore, List.dropWhile_cons, if_neg (by simp), List.tail_cons]

/-- The later links behind one of the successors are the successors behind it. -/
theorem Leaves.later_of_append {before behind : List NodeId} (ha : a.WellFormed)
    (h : Leaves a grammar parent ctx (before ++ n :: behind) b) : a.later parent n = behind := by
  rw [← (h.later_eq n).1]
  apply tail_dropWhile_append
  rcases h.plain_or_single with ⟨-, hnext, -⟩ | ⟨-, hnext⟩
  · rw [hnext]
    exact ha.nodup parent
  · obtain ⟨rfl, rfl⟩ : before = [] ∧ behind = [] := by
      rw [List.length_append, List.length_cons] at hnext
      exact ⟨List.length_eq_zero_iff.mp (by omega), List.length_eq_zero_iff.mp (by omega)⟩
    exact List.nodup_singleton n

/-- What lies behind a later link is what the list of later links has behind it. -/
theorem later_of_later {before behind : List NodeId} (ha : a.WellFormed)
    (h : a.later parent id = before ++ n :: behind) : a.later parent n = behind := by
  have hk : (a.kind parent).isPlain = true := by
    by_contra hk
    rw [later, if_neg hk] at h
    exact absurd h.symm (List.append_ne_nil_of_right_ne_nil _ (List.cons_ne_nil _ _))
  rw [later, if_pos hk] at h ⊢
  obtain ⟨m, hm⟩ : ∃ m, (a.wired parent).dropWhile (· != id) = m :: (before ++ n :: behind) := by
    cases hdrop : (a.wired parent).dropWhile (· != id) with
    | nil =>
      rw [hdrop] at h
      exact absurd h.symm (List.append_ne_nil_of_right_ne_nil _ (List.cons_ne_nil _ _))
    | cons m rest =>
      rw [hdrop, List.tail_cons] at h
      exact ⟨m, by rw [h]⟩
  have hwired :
      a.wired parent = ((a.wired parent).takeWhile (· != id) ++ m :: before) ++ n :: behind := by
    rw [List.append_assoc, List.cons_append, ← hm, List.takeWhile_append_dropWhile]
  have hnodup := ha.nodup parent
  rw [hwired] at hnodup ⊢
  exact tail_dropWhile_append hnodup

/-- Looking for what lies behind a node wires nothing that stays. -/
theorem successors_later (grammar : Grammar) (hs : 2 ≤ a.size) (parent id : NodeId)
    (ctx : Context) :
    (((a.successors grammar parent ctx).1.getD []).dropWhile (· != id)).tail = a.later parent id ∧
      (a.successors grammar parent ctx).2.truncate a.size = a ∧
      (a.later parent id ≠ [] → (a.successors grammar parent ctx).2 = a) := by
  rcases hsucc : a.successors grammar parent ctx with ⟨_ | next, b⟩
  · have hk : (a.kind parent).isPlain = false := by
      apply isPlain_of_successors_none
      rw [hsucc]
    obtain rfl := successors_none hsucc
    rw [later, hk, if_neg (by simp)]
    exact ⟨rfl, truncate_of_le (le_refl b) hs, fun h => absurd rfl h⟩
  · have hleaves := leaves_of_successors hsucc
    obtain ⟨hlater, hsame⟩ := hleaves.later_eq id
    exact ⟨hlater, truncate_of_le hleaves.le hs, hsame⟩

/-- The node that the tip of the elements can be replaced by: the first later link of its parent
that the path does not return to. -/
def alternative? (graph : Graph) : List PathElement → Option NodeId
  | e :: parent :: rest =>
    (graph.later parent.node e.node).find? fun n => !Path.revisitsIn graph n 0 (parent :: rest)
  | _ => none

end Graph

namespace Search

variable {g : Grammar} {full : Bool} {s s' : Search} {pending pending' : List Token}
  {e : PathElement} {rest : List PathElement} {n : NodeId}

theorem tip?_eq (h : s.path.elements = e :: rest) : s.path.tip? = some e := by
  rw [Path.tip?, h, List.head?_cons]

theorem exists_rest (h : s.path.tip? = some e) : ∃ rest, s.path.elements = e :: rest :=
  ⟨_, List.eq_cons_of_mem_head? h⟩

theorem tip?_pop (h : s.path.elements = e :: rest) : s.pop.path.tip? = rest.head? := by
  rw [Path.tip?, elements_pop, h, List.tail_cons]

/-- The two outcomes of looking for a sibling of the tip. -/
theorem switchSibling_eq (hs : 2 ≤ s.graph.size) (h : s.path.elements = e :: rest)
    (pending : List Token) : s.switchSibling g pending =
      match s.graph.alternative? (e :: rest) with
      | some n => (true, s.pop.push g n none, e.token.toList ++ pending)
      | none => (false, s.pop.push g e.node e.token, pending) := by
  rw [switchSibling, tip?_eq h]
  simp only [tip?_pop h]
  cases rest with
  | nil => rfl
  | cons parent rest =>
    simp only [List.head?_cons, Graph.alternative?]
    obtain ⟨hlater, htruncate, hsame⟩ :=
      Graph.successors_later g hs parent.node e.node ⟨s.pop.path, e.token⟩
    rw [graph_pop]
    generalize s.graph.successors g parent.node ⟨s.pop.path, e.token⟩ = r at hlater htruncate hsame
    obtain ⟨next, graph⟩ := r
    simp only at hlater htruncate hsame ⊢
    rw [hlater, htruncate]
    by_cases hnil : s.graph.later parent.node e.node = []
    · rw [hnil]
      rfl
    · obtain rfl : graph = s.graph := hsame hnil
      have helements : s.pop.path.elements = parent :: rest := by
        rw [elements_pop, h, List.tail_cons]
      simp only [Path.revisits, helements, ite_self]
      cases List.find? _ (s.graph.later parent.node e.node) <;> rfl

/-- How backtracking changes the elements of a path and the pending tokens: the tip is replaced by
its alternative, or, if it has none and is no barrier, it is stepped back over.  Its token is
pending again in both cases. -/
inductive Retreats (graph : Graph) (full : Bool) :
    List PathElement → List Token → List PathElement → List Token → Prop
  | switch {e : PathElement} {rest : List PathElement} {pending : List Token} {n : NodeId} :
      graph.alternative? (e :: rest) = some n →
      Retreats graph full (e :: rest) pending (⟨n, none⟩ :: rest) (e.token.toList ++ pending)
  | back {e : PathElement} {rest els' : List PathElement} {pending pending' : List Token} :
      graph.alternative? (e :: rest) = none →
        (full = true ∨ (graph.kind e.node).isRuleEnd = false) →
      Retreats graph full rest (e.token.toList ++ pending) els' pending' →
      Retreats graph full (e :: rest) pending els' pending'

/-- The path is the one that its elements give when it is built from scratch. -/
def IsReplay (g : Grammar) (s : Search) : Prop := s.path = .replay s.graph g s.path.elements

theorem isReplay_ofElements (graph : Graph) (g : Grammar) (els : List PathElement) :
    (ofElements graph g els).IsReplay g := by
  rw [IsReplay, elements_ofElements]
  rfl

theorem IsReplay.push (h : s.IsReplay g) (n : NodeId) (token : Option Token) :
    (s.push g n token).IsReplay g := by
  rw [IsReplay, elements_push, graph_push, Path.replay_cons, ← h]
  rfl

theorem IsReplay.pop (h : s.IsReplay g) (hels : s.path.elements = e :: rest)
    (hr : (Path.replay s.graph g rest).Reverts s.graph e.node e.token) : s.pop.IsReplay g := by
  rw [IsReplay, hels] at h
  rw [IsReplay, elements_pop, graph_pop, hels, List.tail_cons, Search.pop, h, Path.replay_cons,
    Path.pop_push hr]

/-- Stepping onto the popped tip again gives the same path. -/
theorem IsReplay.push_pop (h : s.IsReplay g) (hels : s.path.elements = e :: rest)
    (hr : (Path.replay s.graph g rest).Reverts s.graph e.node e.token) :
    s.pop.push g e.node e.token = s := by
  have hpop := h.pop hels hr
  rw [IsReplay, elements_pop, graph_pop, hels, List.tail_cons] at hpop
  rw [IsReplay, hels, Path.replay_cons, ← hpop] at h
  rw [Search.push, graph_pop, ← h]

/-- The search after one round without an alternative. -/
theorem backtrackFrom_succ (hs : 2 ≤ s.graph.size) (h : s.path.elements = e :: rest) (fuel : Nat)
    (pending : List Token) (removed : List PathElement) :
    backtrackFrom g full (fuel + 1) s pending removed =
      if rest = [] then (false, restore g removed s pending)
      else
        match s.graph.alternative? (e :: rest) with
        | some n => (true, s.pop.push g n none, e.token.toList ++ pending)
        | none =>
          if (s.graph.kind e.node).isRuleEnd && !full then
            (false, restore g removed (s.pop.push g e.node e.token) pending)
          else
            backtrackFrom g full fuel (s.pop.push g e.node e.token).pop
              (e.token.toList ++ pending) (e :: removed) := by
  rw [backtrackFrom, switchSibling_eq hs h, Path.length, h]
  cases rest with
  | nil => rfl
  | cons parent rest =>
    rw [if_neg (by simp), if_neg (by simp)]
    cases s.graph.alternative? (e :: parent :: rest) with
    | some n => rfl
    | none => rfl

theorem backtrackFrom_true :
    ∀ {fuel : Nat} {s : Search} {pending : List Token} {removed : List PathElement},
    2 ≤ s.graph.size → backtrackFrom g full fuel s pending removed = (true, s', pending') →
    s'.graph = s.graph ∧ Retreats s.graph full s.path.elements pending s'.path.elements pending' ∧
      (s.IsReplay g → Path.Reversible s.graph g s.path.elements → s'.IsReplay g)
  | 0, _, _, _, _, h => absurd (Prod.mk.inj h).1 (by simp)
  | fuel + 1, s, pending, removed, hs, h => by
    cases hels : s.path.elements with
    | nil =>
      rw [backtrackFrom, Path.length, hels] at h
      exact absurd (Prod.mk.inj h).1 (by simp)
    | cons e rest =>
      rw [backtrackFrom_succ hs hels] at h
      split at h
      · exact absurd (Prod.mk.inj h).1 (by simp)
      · split at h
        · next n halt =>
          obtain ⟨-, rfl, rfl⟩ : true = true ∧ s.pop.push g n none = s' ∧
              e.token.toList ++ pending = pending' := by
            simpa using h
          refine ⟨rfl, ?_, fun hreplay hrev => (hreplay.pop hels hrev.1).push n none⟩
          rw [elements_push, elements_pop, hels, List.tail_cons]
          exact .switch halt
        · next halt =>
          split at h
          · exact absurd (Prod.mk.inj h).1 (by simp)
          · next hbarrier =>
            obtain ⟨hgraph, hretreats, hreplay⟩ :=
              backtrackFrom_true (s := (s.pop.push g e.node e.token).pop) hs h
            have helements : (s.pop.push g e.node e.token).pop.path.elements = rest := by
              rw [elements_pop, elements_push, List.tail_cons, elements_pop, hels, List.tail_cons]
            rw [helements] at hretreats hreplay
            refine ⟨hgraph, .back halt ?_ hretreats, ?_⟩
            · cases hk : (s.graph.kind e.node).isRuleEnd <;> cases full <;> simp_all
            · rintro hs' hrev
              rw [hs'.push_pop hels hrev.1] at hreplay
              exact hreplay (hs'.pop hels hrev.1) hrev.2

/-- With full backtracking the search gives up only where no element has an alternative left. -/
theorem backtrackFrom_false :
    ∀ {fuel : Nat} {s : Search} {pending : List Token} {removed : List PathElement},
    2 ≤ s.graph.size →
    s.path.length ≤ fuel → (backtrackFrom g true fuel s pending removed).1 = false →
    ∀ els, els <:+ s.path.elements → s.graph.alternative? els = none
  | fuel, s, pending, removed, hs, hfuel, h, els, hsuffix => by
    cases hels : s.path.elements with
    | nil =>
      rw [hels, List.suffix_nil] at hsuffix
      rw [hsuffix]
      rfl
    | cons e rest =>
      rw [hels] at hsuffix
      obtain ⟨fuel, rfl⟩ : ∃ k, fuel = k + 1 := by
        rw [Path.length, hels, List.length_cons] at hfuel
        exact Nat.exists_eq_add_one_of_ne_zero (Nat.ne_zero_of_lt hfuel)
      rw [backtrackFrom_succ hs hels] at h
      split at h
      · next hrest =>
        subst hrest
        rcases List.suffix_cons_iff.mp hsuffix with rfl | hsuffix
        · rfl
        · rw [List.suffix_nil.mp hsuffix]
          rfl
      · split at h
        · exact absurd h (by simp)
        · next halt =>
          rw [Bool.not_true, Bool.and_false, if_neg (by simp)] at h
          rcases List.suffix_cons_iff.mp hsuffix with rfl | hsuffix
          · exact halt
          · have helements : (s.pop.push g e.node e.token).pop.path.elements = rest := by
              rw [elements_pop, elements_push, List.tail_cons, elements_pop, hels, List.tail_cons]
            refine backtrackFrom_false (s := (s.pop.push g e.node e.token).pop) hs ?_ h els
              (helements ▸ hsuffix)
            rw [Path.length, helements]
            rw [Path.length, hels] at hfuel
            exact Nat.le_of_succ_le_succ hfuel

theorem backtrack_true (hs : 2 ≤ s.graph.size)
    (h : s.backtrack g full pending = (true, s', pending')) :
    s'.graph = s.graph ∧ Retreats s.graph full s.path.elements pending s'.path.elements pending' ∧
      (s.IsReplay g → Path.Reversible s.graph g s.path.elements → s'.IsReplay g) :=
  backtrackFrom_true hs h

theorem backtrack_false (hs : 2 ≤ s.graph.size) (h : (s.backtrack g true pending).1 = false) :
    ∀ els, els <:+ s.path.elements → s.graph.alternative? els = none :=
  backtrackFrom_false hs (le_refl _) h

end Search

end GrammarGraph
