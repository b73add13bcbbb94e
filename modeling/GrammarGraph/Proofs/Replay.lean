import GrammarGraph.Search.Basic
import GrammarGraph.Proofs.Successors

/-!
# Paths rebuilt from scratch

A path is determined by its elements as long as stepping back takes back exactly what stepping forth
did.  That depends on the hooks of the grammar alone: `Path.Reverts` says it of one step,
`Path.Reversible` of all the steps along a path.
-/

namespace GrammarGraph

namespace Scope

/-- The environment that `update` changes: that of the innermost scope that is not hidden. -/
def current? : Nat → List Scope → Option Env
  | _, [] => none
  | hidden, exited :: rest => current? (hidden + 1) rest
  | hidden + 1, active _ :: rest => current? hidden rest
  | 0, active env :: _ => some env

theorem update_update (f h : Env → Env) : ∀ (hidden : Nat) (scopes : List Scope),
    update f hidden (update h hidden scopes) = update (fun env => f (h env)) hidden scopes
  | _, [] => by simp only [update]
  | hidden, exited :: rest => by simp only [update, update_update f h (hidden + 1) rest]
  | hidden + 1, active _ :: rest => by simp only [update, update_update f h hidden rest]
  | 0, active _ :: _ => by simp only [update]

/-- Changing the current environment into itself changes nothing. -/
theorem update_eq_self {f : Env → Env} : ∀ {hidden : Nat} {scopes : List Scope},
    (∀ env, current? hidden scopes = some env → f env = env) → update f hidden scopes = scopes
  | _, [], _ => by simp only [update]
  | hidden, exited :: rest, h => by
    rw [update, update_eq_self fun env he => h env (by rw [current?]; exact he)]
  | hidden + 1, active _ :: rest, h => by
    rw [update, update_eq_self fun env he => h env (by rw [current?]; exact he)]
  | 0, active env :: rest, h => by rw [update, h env (by rw [current?])]

end Scope

namespace Path

variable {a b graph : Graph} {g : Grammar} {p : Path} {node : NodeId} {token : Option Token}
  {els : List PathElement} {e : PathElement}

/-- Where stepping onto the node runs a hook on an environment, its undo takes that back. -/
def Reverts (p : Path) (graph : Graph) (node : NodeId) (token : Option Token) : Prop :=
  match graph.kind node, token, Scope.current? 0 p.scopes with
  | .slot _ _ (some hook), some t, some env => hook.Reverts env t
  | _, _, _ => True

instance : Decidable (p.Reverts graph node token) := by
  unfold Reverts Hook.Reverts
  split <;> infer_instance

@[simp] theorem elements_push :
    (p.push graph g node token).elements = ⟨node, token⟩ :: p.elements := rfl

theorem push_of_le (h : a ≤ b) (hn : node < a.size) :
    p.push b g node token = p.push a g node token := by
  simp only [push, Graph.kind_of_le h hn]

@[simp] theorem elements_pop : (p.pop graph).2.elements = p.elements.tail := by
  obtain ⟨elements, scopes⟩ := p
  cases elements <;> rfl

/-- Stepping back undoes a step, provided that the hook it ran, if any, can be taken back. -/
theorem pop_push (h : p.Reverts graph node token) :
    ((p.push graph g node token).pop graph).2 = p := by
  obtain ⟨elements, scopes⟩ := p
  simp only [pop, push, mk.injEq, true_and]
  cases hk : graph.kind node with
  | ruleStart | ruleEnd => rfl
  | junction | gate | switch => rfl
  | slot type ident hook =>
    cases hook with
    | none => rfl
    | some hook =>
      cases token with
      | none => rfl
      | some t =>
        simp only [Scope.update_update]
        apply Scope.update_eq_self
        intro env he
        simp only [Reverts, hk, he] at h
        exact h

/-- Without a token no hook runs. -/
theorem reverts_none (p : Path) (graph : Graph) (node : NodeId) : p.Reverts graph node none := by
  unfold Reverts
  split
  · next h _ => exact absurd h (by simp)
  · trivial

/-! ## Replaying -/

/-- The path over the elements, the tip first, rebuilt by stepping onto one after the other. -/
def replay (graph : Graph) (g : Grammar) : List PathElement → Path
  | [] => {}
  | e :: rest => (replay graph g rest).push graph g e.node e.token

@[simp] theorem replay_cons :
    replay graph g (e :: els) = (replay graph g els).push graph g e.node e.token := rfl

@[simp] theorem elements_replay (graph : Graph) (g : Grammar) (els : List PathElement) :
    (replay graph g els).elements = els := by
  induction els with
  | nil => rfl
  | cons e els ih => rw [replay_cons, elements_push, ih]

theorem replay_of_le (h : a ≤ b) (hels : ∀ e ∈ els, e.node < a.size) :
    replay b g els = replay a g els := by
  induction els with
  | nil => rfl
  | cons e els ih =>
    rw [replay_cons, replay_cons, ih fun e' he' => hels e' (List.mem_cons_of_mem _ he'),
      push_of_le h (hels e List.mem_cons_self)]

/-- Every step that led along the elements, the tip first, can be taken back. -/
def Reversible (graph : Graph) (g : Grammar) : List PathElement → Prop
  | [] => True
  | e :: rest => (replay graph g rest).Reverts graph e.node e.token ∧ Reversible graph g rest

instance decidableReversible (graph : Graph) (g : Grammar) :
    ∀ els, Decidable (Reversible graph g els)
  | [] => .isTrue trivial
  | _ :: rest => @instDecidableAnd _ _ inferInstance (decidableReversible graph g rest)

@[simp] theorem reversible_cons : Reversible graph g (e :: els) ↔
    (replay graph g els).Reverts graph e.node e.token ∧ Reversible graph g els := Iff.rfl

end Path

namespace Search

variable {g : Grammar} {s : Search} {node : NodeId} {token : Option Token}

@[simp] theorem graph_push : (s.push g node token).graph = s.graph := rfl

@[simp] theorem elements_push :
    (s.push g node token).path.elements = ⟨node, token⟩ :: s.path.elements := rfl

@[simp] theorem graph_pop : s.pop.graph = s.graph := rfl

@[simp] theorem elements_pop : s.pop.path.elements = s.path.elements.tail := Path.elements_pop

theorem pop_push (h : s.path.Reverts s.graph node token) : (s.push g node token).pop = s := by
  obtain ⟨graph, path⟩ := s
  simp only [pop, push, Path.pop_push h]

/-- A step without a token can always be taken back. -/
@[simp] theorem pop_push_none (g : Grammar) (s : Search) (node : NodeId) :
    (s.push g node none).pop = s :=
  pop_push (Path.reverts_none _ _ _)

/-- The search whose path is rebuilt from its elements. -/
def ofElements (graph : Graph) (g : Grammar) (els : List PathElement) : Search :=
  ⟨graph, .replay graph g els⟩

@[simp] theorem graph_ofElements (graph : Graph) (g : Grammar) (els : List PathElement) :
    (ofElements graph g els).graph = graph := rfl

@[simp] theorem elements_ofElements (graph : Graph) (g : Grammar) (els : List PathElement) :
    (ofElements graph g els).path.elements = els := Path.elements_replay graph g els

theorem ofElements_cons (graph : Graph) (g : Grammar) (e : PathElement) (els : List PathElement) :
    ofElements graph g (e :: els) = (ofElements graph g els).push g e.node e.token := rfl

end Search

end GrammarGraph
