import GrammarGraph.Proofs.Descent

/-!
# Enumerating the paths of a grammar

The plain recursive search: from a path and the tokens that are left it tries the successors of the
tip in their order, each with all that can follow it, until a path is accepted.  There is no stack
of pending tokens and no stepping back; a token is taken by recursion on the tokens behind it.

The arena is threaded through, so that nodes get the numbers that they get in a search: what was
wired for paths that are not accepted is released, unless a token was taken on one of them.  The
numbers matter, because guards and rules can look at the path that leads to them.
-/

namespace GrammarGraph

/-- What an enumeration comes to. -/
inductive Answer where
  /-- The first accepting path. -/
  | found (s : Search)
  /-- No path is accepted.  If tokens were taken in vain, the arena to go on with. -/
  | nothing (kept : Option Graph)

namespace Answer

/-- Keep what was kept before, unless a later arena is kept. -/
def orKeep (before : Option Graph) : Answer → Answer
  | found s => found s
  | nothing kept => nothing (kept.or before)

@[simp] theorem orKeep_none (answer : Answer) : answer.orKeep none = answer := by
  cases answer with
  | found => rfl
  | nothing kept => rw [orKeep, Option.or_none]

theorem orKeep_some_ne (answer : Answer) (graph : Graph) :
    answer.orKeep (some graph) ≠ nothing none := by
  match answer with
  | found _ | nothing none | nothing (some _) => simp [orKeep]

/-- The arena behind an answer: `graph` unless another one is kept. -/
def arena (graph : Graph) : Answer → Graph
  | found s => s.graph
  | nothing kept => kept.getD graph

@[simp] theorem arena_orKeep (before : Option Graph) (graph : Graph) (answer : Answer) :
    (answer.orKeep before).arena graph = answer.arena (before.getD graph) := by
  cases answer with
  | found => rfl
  | nothing kept => exact Option.getD_or

end Answer

namespace Search

/-- Step onto a node, unless the path would return to it, and go on from there.  A slot takes the
next token, which needs the type of the slot; without a token left slots are skipped. -/
def attempt (g : Grammar) (tokens : List Token) (visit : List Token → Search → Option Answer)
    (s : Search) (n : NodeId) : Option Answer :=
  if s.path.revisits s.graph n then some (.nothing none)
  else
    match s.graph.kind n, tokens with
    | .slot .., [] => some (.nothing none)
    | .slot type _ _, t :: rest =>
      if t.hasType type.id then (visit rest (s.push g n (some t))).map (.orKeep (some s.graph))
      else some (.nothing none)
    | _, _ => visit tokens (s.push g n none)

/-- Try nodes in turn until a path is accepted. -/
def attemptEach (g : Grammar) (tokens : List Token) (visit : List Token → Search → Option Answer) :
    List NodeId → Search → Option Answer
  | [], _ => some (.nothing none)
  | n :: ns, s =>
    match attempt g tokens visit s n with
    | some (.nothing kept) =>
      (attemptEach g tokens visit ns { s with graph := kept.getD s.graph }).map (.orKeep kept)
    | answer => answer

/-- The first accepting path that extends a path and takes the tokens: try the successors of
the tip in the context of the path and the next token.  A rule end without successors is
accepted if no token is left. -/
def explore (g : Grammar) : Nat → List Token → Search → Option Answer
  | 0, _, _ => none
  | fuel + 1, tokens, s =>
    match s.path.tip? with
    | none => some (.nothing none)
    | some tip =>
      match s.graph.successors g tip.node ⟨s.path, tokens.head?⟩ with
      | (none, _) => some (.nothing none)
      | (some next, graph) =>
        if next.isEmpty && tokens.isEmpty &&
          (s.graph.kind tip.node).isRuleEnd then some (.found { s with graph })
        else attemptEach g tokens (explore g fuel) next { s with graph }

variable {g : Grammar} {s s' : Search} {tokens rest : List Token} {t : Token}
  {answer answer' : Answer} {n : NodeId} {ns : List NodeId} {graph : Graph} {tip : PathElement}
  {f f' : Nat → Option Answer} {visit : List Token → Search → Option Answer}

/-! ## Arenas -/

theorem attempt_of_not_revisits (hrev : s.path.revisits s.graph n = false)
    (visit : List Token → Search → Option Answer) : attempt g tokens visit s n =
      match s.graph.kind n, tokens with
      | .slot .., [] => some (.nothing none)
      | .slot type _ _, t :: rest =>
        if t.hasType type.id then (visit rest (s.push g n (some t))).map (.orKeep (some s.graph))
        else some (.nothing none)
      | _, _ => visit tokens (s.push g n none) := by
  unfold attempt
  rw [if_neg (by rw [hrev]; simp)]

section

variable {R : Graph → Graph → Prop} (hrefl : ∀ a, R a a) (htrans : ∀ {a b c}, R a b → R b c → R a c)

include hrefl

theorem arena_attempt
    (hv : ∀ tokens s answer, visit tokens s = some answer → R s.graph (answer.arena s.graph))
    (h : attempt g tokens visit s n = some answer) : R s.graph (answer.arena s.graph) := by
  unfold attempt at h
  split at h
  · obtain rfl := Option.some.inj h
    exact hrefl s.graph
  · split at h
    · obtain rfl := Option.some.inj h
      exact hrefl s.graph
    · split at h
      · obtain ⟨inner, hinner, rfl⟩ := Option.map_eq_some_iff.mp h
        have hR := hv _ _ _ hinner
        rw [Answer.arena_orKeep]
        exact hR
      · obtain rfl := Option.some.inj h
        exact hrefl s.graph
    · have hR := hv _ _ _ h
      exact hR

include htrans

theorem arena_attemptEach
    (hv : ∀ tokens s answer, visit tokens s = some answer → R s.graph (answer.arena s.graph))
    (h : attemptEach g tokens visit ns s = some answer) : R s.graph (answer.arena s.graph) := by
  induction ns generalizing s answer with
  | nil =>
    obtain rfl := Option.some.inj h
    exact hrefl s.graph
  | cons n ns ih =>
    rw [attemptEach] at h
    split at h
    · next kept hattempt =>
      obtain ⟨inner, hinner, rfl⟩ := Option.map_eq_some_iff.mp h
      rw [Answer.arena_orKeep]
      exact htrans (arena_attempt hrefl hv hattempt) (ih hinner)
    · exact arena_attempt hrefl hv h

/-- An enumeration changes the arena as leaving nodes does. -/
theorem arena_explore_of (hleaves : ∀ {a id ctx next b}, a.successors g id ctx = (some next, b) →
      R a b) : ∀ {fuel : Nat} {tokens : List Token} {s : Search} {answer : Answer},
    explore g fuel tokens s = some answer → R s.graph (answer.arena s.graph)
  | 0, _, _, _, h => absurd h (by simp [explore])
  | fuel + 1, tokens, s, answer, h => by
    rw [explore] at h
    split at h
    · obtain rfl := Option.some.inj h
      exact hrefl s.graph
    · split at h
      · obtain rfl := Option.some.inj h
        exact hrefl s.graph
      · next next graph hsucc =>
        have hR := hleaves hsucc
        split at h
        · obtain rfl := Option.some.inj h
          exact hR
        · have harena :=
            arena_attemptEach hrefl htrans (fun _ _ _ hvisit => arena_explore_of hleaves hvisit) h
          match answer, harena with
          | .found _, harena => exact htrans hR harena
          | .nothing (some _), harena => exact htrans hR harena
          | .nothing none, _ => exact hrefl s.graph

end

/-- An enumeration extends the arena. -/
theorem arena_explore {fuel : Nat} (h : explore g fuel tokens s = some answer) :
    s.graph ≤ answer.arena s.graph :=
  arena_explore_of le_refl le_trans successors_le h

/-! ## Answers -/

/-- From some bound on the function gives the answer. -/
def Yields (f : Nat → Option Answer) (answer : Answer) : Prop :=
  ∃ bound, ∀ fuel, bound ≤ fuel → f fuel = some answer

theorem yields_const (answer : Answer) : Yields (fun _ => some answer) answer := ⟨0, fun _ _ => rfl⟩

theorem Yields.map (h : Yields f answer) (k : Answer → Answer) :
    Yields (fun fuel => (f fuel).map k) (k answer) := by
  obtain ⟨bound, h⟩ := h
  refine ⟨bound, ?_⟩
  intro fuel hfuel
  simp only [h fuel hfuel, Option.map_some]

/-- What holds of one function from its bound on carries over to another one. -/
theorem Yields.of_eq (h : Yields f answer)
    (hf : ∀ fuel, f fuel = some answer → f' fuel = some answer') : Yields f' answer' := by
  obtain ⟨bound, h⟩ := h
  exact ⟨bound, fun fuel hfuel => hf fuel (h fuel hfuel)⟩

theorem Yields.of_eq₂ {f₁ f₂ : Nat → Option Answer} {answer₁ answer₂ : Answer}
    (h₁ : Yields f₁ answer₁) (h₂ : Yields f₂ answer₂)
    (hf : ∀ fuel, f₁ fuel = some answer₁ → f₂ fuel = some answer₂ → f fuel = some answer) :
    Yields f answer := by
  obtain ⟨bound₁, h₁⟩ := h₁
  obtain ⟨bound₂, h₂⟩ := h₂
  refine ⟨max bound₁ bound₂, fun fuel hfuel => hf fuel (h₁ fuel ?_) (h₂ fuel ?_)⟩
  · exact le_trans (le_max_left _ _) hfuel
  · exact le_trans (le_max_right _ _) hfuel

/-- The answer of exploring from the tip. -/
def Explores (g : Grammar) (tokens : List Token) (s : Search) (answer : Answer) : Prop :=
  Yields (fun fuel => explore g fuel tokens s) answer

/-- The answer of one attempt. -/
def Attempts (g : Grammar) (tokens : List Token) (s : Search) (n : NodeId)
    (answer : Answer) : Prop :=
  Yields (fun fuel => attempt g tokens (explore g fuel) s n) answer

/-- The answer of attempts in turn. -/
def AttemptsEach (g : Grammar) (tokens : List Token) (ns : List NodeId) (s : Search)
    (answer : Answer) : Prop :=
  Yields (fun fuel => attemptEach g tokens (explore g fuel) ns s) answer

theorem attemptsEach_nil : AttemptsEach g tokens [] s (.nothing none) := yields_const _

/-- An attempt in vain is followed by the next one, in the arena that it left. -/
theorem attemptsEach_cons {kept : Option Graph} (h : Attempts g tokens s n (.nothing kept))
    (hrest : AttemptsEach g tokens ns { s with graph := kept.getD s.graph } answer) :
    AttemptsEach g tokens (n :: ns) s (answer.orKeep kept) := by
  refine Yields.of_eq₂ h hrest ?_
  intro fuel hn hns
  rw [attemptEach, hn]
  simp only [hns, Option.map_some]

theorem attemptsEach_cons_found (h : Attempts g tokens s n (.found s')) :
    AttemptsEach g tokens (n :: ns) s (.found s') := by
  refine Yields.of_eq h ?_
  intro fuel hn
  rw [attemptEach, hn]

/-- Attempts in vain without a token taken can be left out. -/
theorem attemptsEach_append {before : List NodeId}
    (h : ∀ m ∈ before, Attempts g tokens s m (.nothing none))
    (hrest : AttemptsEach g tokens ns s answer) :
    AttemptsEach g tokens (before ++ ns) s answer := by
  induction before with
  | nil => exact hrest
  | cons m before ih =>
    rw [← answer.orKeep_none]
    exact attemptsEach_cons (h m List.mem_cons_self)
      (ih fun m' hm' => h m' (List.mem_cons_of_mem _ hm'))

theorem attempts_of_revisits (h : s.path.revisits s.graph n = true) :
    Attempts g tokens s n (.nothing none) := by
  refine Yields.of_eq (yields_const (.nothing none)) ?_
  intro fuel _
  unfold attempt
  rw [if_pos h]

theorem Yields.succ {f : Nat → Option Answer} (h : Yields f answer)
    (hf : ∀ fuel, f fuel = some answer → f' (fuel + 1) = some answer') : Yields f' answer' := by
  obtain ⟨bound, h⟩ := h
  refine ⟨bound + 1, ?_⟩
  intro fuel hfuel
  obtain ⟨fuel, rfl⟩ := Nat.exists_eq_add_one_of_ne_zero (Nat.ne_zero_of_lt hfuel)
  exact hf fuel (h fuel (Nat.le_of_succ_le_succ hfuel))

theorem explores_of_explore_succ (h : ∀ fuel, explore g (fuel + 1) tokens s = some answer) :
    Explores g tokens s answer :=
  (yields_const answer).succ fun fuel _ => h fuel

/-- Exploring from a tip with successors tries them in turn, unless the path is accepted. -/
theorem explores_of_attemptsEach {next : List NodeId} (ht : s.path.tip? = some tip)
    (hsucc : s.graph.successors g tip.node ⟨s.path, tokens.head?⟩ = (some next, graph))
    (hend : next = [] → (tokens.head?.isNone && (s.graph.kind tip.node).isRuleEnd) = false)
    (h : AttemptsEach g tokens next { s with graph } answer) : Explores g tokens s answer := by
  refine Yields.succ h ?_
  intro fuel hnext
  rw [explore, ht]
  simp only [hsucc]
  rw [if_neg]
  · exact hnext
  · intro haccept
    rw [Bool.and_eq_true, Bool.and_eq_true, List.isEmpty_iff, List.isEmpty_iff] at haccept
    obtain ⟨⟨rfl, rfl⟩, hruleEnd⟩ := haccept
    have hend' := hend rfl
    rw [hruleEnd] at hend'
    exact absurd hend' (by simp)

end Search

end GrammarGraph
