import GrammarGraph.Proofs.Replay
import GrammarGraph.Sample
import Mathlib.Combinatorics.Enumerative.DyckWord

/-!
# Variables belong to the open rule instances

The scopes of a path lie on one flat stack, on which a rule that has ended leaves a marker.  Read as
brackets, rule starts and rule ends tell which instances are still open, and each of them has a
scope of its own (`Path.openScopes`).  Looking a variable up finds it in the innermost of these
scopes that defines it, and a hook changes the innermost one and nothing else
(`Path.var?_eq_findSome?`).
-/

namespace GrammarGraph

open DyckStep

/-! ## Fronts of balanced words -/

/-- The front of a balanced word. -/
def IsFront (l : List DyckStep) : Prop := ∃ w : DyckWord, l <+: w.toList

namespace IsFront

variable {l l' : List DyckStep}

theorem of_append (h : IsFront (l ++ l')) : IsFront l := by
  obtain ⟨w, hw⟩ := h
  exact ⟨w, (List.prefix_append l l').trans hw⟩

theorem count_take_le (h : IsFront l) (i : ℕ) : (l.take i).count D ≤ (l.take i).count U := by
  obtain ⟨w, s, hs⟩ := h
  have htake : w.toList.take (min i l.length) = l.take i := by
    rw [← hs, List.take_append_of_le_length (min_le_right _ _), ← List.take_take, List.take_length]
  rw [← htake]
  exact w.count_D_le_count_U _

theorem count_le (h : IsFront l) : l.count D ≤ l.count U := by
  simpa using h.count_take_le l.length

/-- Where no part from the start closes more than it opens, what is open can be closed at the
end. -/
theorem of_count_take_le (h : ∀ i, (l.take i).count D ≤ (l.take i).count U) : IsFront l := by
  have hall : l.count D ≤ l.count U := by simpa using h l.length
  refine ⟨⟨l ++ List.replicate (l.count U - l.count D) D, ?_, fun i => ?_⟩, List.prefix_append _ _⟩
  · rw [List.count_append, List.count_append, List.count_replicate_self, List.count_replicate,
      if_neg (by decide)]
    omega
  · rw [List.take_append, List.take_replicate, List.count_append, List.count_append,
      List.count_replicate_self, List.count_replicate, if_neg (by decide)]
    rcases Nat.lt_or_ge i l.length with hlt | hge
    · have hi := h i
      omega
    · rw [List.take_of_length_le hge]
      omega

theorem iff_count_take_le :
    IsFront l ↔ ∀ i < l.length + 1, (l.take i).count D ≤ (l.take i).count U := by
  refine ⟨fun h i _ => h.count_take_le i, fun h => of_count_take_le fun i => ?_⟩
  rcases Nat.lt_or_ge i (l.length + 1) with hlt | hge
  · exact h i hlt
  · rw [List.take_of_length_le (Nat.le_of_succ_le hge), ← List.take_length (l := l)]
    exact h _ (Nat.lt_succ_self _)

instance : DecidablePred IsFront := fun _ => decidable_of_iff _ iff_count_take_le.symm

theorem concat_U (h : IsFront l) : IsFront (l ++ [U]) := by
  refine of_count_take_le fun i => ?_
  have hi := h.count_take_le i
  rw [List.take_append, List.count_append, List.count_append]
  rcases i - l.length with _ | n <;> simp <;> omega

theorem concat_D_iff : IsFront (l ++ [D]) ↔ IsFront l ∧ l.count D < l.count U := by
  constructor
  · intro h
    have hall := h.count_le
    rw [List.count_append, List.count_append] at hall
    exact ⟨h.of_append, Nat.lt_of_succ_le (by simpa using hall)⟩
  · rintro ⟨h, hlt⟩
    refine of_count_take_le fun i => ?_
    have hi := h.count_take_le i
    rw [List.take_append, List.count_append, List.count_append]
    rcases Nat.lt_or_ge l.length i with hlong | hshort
    · rw [List.take_of_length_le (le_of_lt hlong)]
      have hone : ([D].take (i - l.length)).count D ≤ 1 := List.count_le_length.trans (by simp)
      omega
    · rw [Nat.sub_eq_zero_of_le hshort]
      simpa using hi

/-- What is no front closes more than it opens in some part from the start. -/
theorem exists_of_not (h : ¬IsFront l) :
    ∃ front behind, l = front ++ behind ∧ front.count U < front.count D := by
  by_contra hno
  refine h (of_count_take_le fun i => ?_)
  by_contra hlt
  exact hno ⟨l.take i, l.drop i, (List.take_append_drop i l).symm, not_le.mp hlt⟩

end IsFront

/-! ## The flat stack -/

namespace Scope

variable {name : String} {f : Env → Env} {above below : List Scope} {env : Env}

/-- The environments that are not hidden, the innermost first. -/
def opened : Nat → List Scope → List Env
  | _, [] => []
  | hidden, exited :: rest => opened (hidden + 1) rest
  | hidden + 1, active _ :: rest => opened hidden rest
  | 0, active env :: rest => env :: opened 0 rest

theorem lookup_eq_findSome? (name : String) : ∀ (hidden : Nat) (scopes : List Scope),
    lookup name hidden scopes = (opened hidden scopes).findSome? (·.get? name)
  | _, [] => by simp [lookup, opened]
  | hidden, exited :: rest => by rw [lookup, opened, lookup_eq_findSome?]
  | hidden + 1, active _ :: rest => by rw [lookup, opened, lookup_eq_findSome?]
  | 0, active env :: rest => by
    rw [lookup, opened, lookup_eq_findSome?, List.findSome?_cons]
    cases env.get? name <;> rfl

theorem opened_update (f : Env → Env) : ∀ (hidden : Nat) (scopes : List Scope),
    opened hidden (update f hidden scopes) = (opened hidden scopes).modifyHead f
  | _, [] => by simp [update, opened]
  | hidden, exited :: rest => by rw [update, opened, opened, opened_update]
  | hidden + 1, active _ :: rest => by rw [update, opened, opened, opened_update]
  | 0, active _ :: rest => by rw [update, opened, opened]; rfl

/-- A marker hides the innermost environment. -/
theorem opened_succ : ∀ (hidden : Nat) (scopes : List Scope),
    opened (hidden + 1) scopes = (opened hidden scopes).tail
  | _, [] => by simp [opened]
  | hidden, exited :: rest => by rw [opened, opened, opened_succ]
  | hidden + 1, active _ :: rest => by rw [opened, opened, opened_succ]
  | 0, active _ :: rest => by rw [opened, opened]; rfl

theorem current?_eq_head? :
    ∀ (hidden : Nat) (scopes : List Scope), current? hidden scopes = (opened hidden scopes).head?
  | _, [] => by simp [current?, opened]
  | hidden, exited :: rest => by rw [current?, opened, current?_eq_head?]
  | hidden + 1, active _ :: rest => by rw [current?, opened, current?_eq_head?]
  | 0, active _ :: rest => by rw [current?, opened]; rfl

/-- How many scopes further out are still hidden behind some scopes, if none of these is the
innermost that is not. -/
def hiddenBehind : Nat → List Scope → Option Nat
  | hidden, [] => some hidden
  | hidden, exited :: rest => hiddenBehind (hidden + 1) rest
  | hidden + 1, active _ :: rest => hiddenBehind hidden rest
  | 0, active _ :: _ => none

theorem hiddenBehind_update (f : Env → Env) : ∀ (hidden hidden' : Nat) (scopes : List Scope),
    hiddenBehind hidden (update f hidden' scopes) = hiddenBehind hidden scopes
  | _, _, [] => by rw [update]
  | _, _, exited :: rest => by rw [update, hiddenBehind, hiddenBehind, hiddenBehind_update]
  | hidden, hidden' + 1, active _ :: rest => by
    cases hidden <;> simp only [update, hiddenBehind, hiddenBehind_update]
  | hidden, 0, active _ :: rest => by cases hidden <;> simp only [update, hiddenBehind]

theorem length_update (f : Env → Env) : ∀ (hidden : Nat) (scopes : List Scope),
    (update f hidden scopes).length = scopes.length
  | _, [] => by rw [update]
  | _, exited :: rest => by rw [update, List.length_cons, length_update, List.length_cons]
  | hidden + 1, active _ :: rest => by
    rw [update, List.length_cons, length_update, List.length_cons]
  | 0, active _ :: rest => by rw [update]; rfl

/-- The scope that changes is one of the upper ones, or they all stay. -/
theorem update_append (f : Env → Env) (below : List Scope) : ∀ (hidden : Nat) (above : List Scope),
    update f hidden (above ++ below) =
      match hiddenBehind hidden above with
      | some hidden' => above ++ update f hidden' below
      | none => update f hidden above ++ below
  | _, [] => by rw [hiddenBehind]; rfl
  | hidden, exited :: rest => by
    rw [List.cons_append, update, update_append, hiddenBehind, update]
    cases hiddenBehind (hidden + 1) rest <;> rfl
  | hidden + 1, active _ :: rest => by
    rw [List.cons_append, update, update_append, hiddenBehind, update]
    cases hiddenBehind hidden rest <;> rfl
  | 0, active _ :: rest => by rw [List.cons_append, update, hiddenBehind, update]; rfl

end Scope

namespace Path

variable {graph a b : Graph} {g : Grammar} {p : Path} {els inside passed before : List PathElement}
  {e : PathElement} {env : Env} {node : NodeId} {token : Option Token}

/-! ## Open rule instances -/

/-- A rule start opens an instance, a rule end closes one. -/
def bracket? (graph : Graph) (e : PathElement) : Option DyckStep :=
  match graph.kind e.node with
  | .ruleStart .. => some U
  | .ruleEnd .. => some D
  | _ => none

def brackets (graph : Graph) (els : List PathElement) : List DyckStep :=
  els.filterMap (bracket? graph)

/-- The elements, the first one first, close no instance that was not opened among them. -/
def Nests (graph : Graph) (els : List PathElement) : Prop :=
  ∃ w : DyckWord, brackets graph els <+: w.toList

/-- They also close every instance that was opened among them. -/
def Balanced (graph : Graph) (els : List PathElement) : Prop :=
  ∃ w : DyckWord, brackets graph els = w.toList

theorem balanced_iff : Balanced graph els ↔
    Nests graph els ∧ (brackets graph els).count U = (brackets graph els).count D := by
  constructor
  · rintro ⟨w, hw⟩
    exact ⟨⟨w, hw ▸ List.prefix_rfl⟩, hw ▸ w.count_U_eq_count_D⟩
  · rintro ⟨hnests, hcount⟩
    exact ⟨⟨brackets graph els, hcount, IsFront.count_take_le hnests⟩, rfl⟩

instance : DecidablePred (Nests graph) :=
  fun els => inferInstanceAs (Decidable (IsFront (brackets graph els)))

instance : DecidablePred (Balanced graph) := fun _ => decidable_of_iff _ balanced_iff.symm

/-- What an element does to the scope of an instance, given the elements passed since its start: a
hook changes the scope while no other instance is open inside. -/
def hooked (graph : Graph) (passed : List PathElement) (e : PathElement) (env : Env) : Env :=
  match graph.kind e.node, e.token with
  | .slot _ _ (some hook), some t => if Balanced graph passed then hook.apply env t else env
  | _, _ => env

/-- The scope of an instance behind more elements, given those passed since its start. -/
def scopeBehind (graph : Graph) : List PathElement → List PathElement → Env → Env
  | _, [], env => env
  | passed, e :: rest, env => scopeBehind graph (passed ++ [e]) rest (hooked graph passed e env)

/-- The scope of the instance that an element starts, if it does and the elements
behind it leave that open. -/
def ownScope (graph : Graph) (g : Grammar) (e : PathElement)
    (inside : List PathElement) : List Env :=
  match graph.kind e.node with
  | .ruleStart rule _ _ =>
    if Nests graph inside then [scopeBehind graph [] inside (g.ruleVars rule)] else []
  | _ => []

/-- The scopes of the instances that are open behind the elements, the innermost first. -/
def openScopes (graph : Graph) (g : Grammar) : List PathElement → List Env
  | [] => []
  | e :: inside => openScopes graph g inside ++ ownScope graph g e inside

@[simp] theorem brackets_append (graph : Graph) (els els' : List PathElement) :
    brackets graph (els ++ els') = brackets graph els ++ brackets graph els' :=
  List.filterMap_append

theorem brackets_singleton (graph : Graph) (e : PathElement) :
    brackets graph [e] = (bracket? graph e).toList := by
  cases h : bracket? graph e <;> simp [brackets, h]

theorem scopeBehind_concat (passed els : List PathElement) (e : PathElement) (env : Env) :
    scopeBehind graph passed (els ++ [e]) env =
      hooked graph (passed ++ els) e (scopeBehind graph passed els env) := by
  induction els generalizing passed env with
  | nil => rw [List.append_nil]; rfl
  | cons x els ih =>
    rw [List.cons_append, scopeBehind, scopeBehind, ih, List.append_assoc, List.singleton_append]

theorem brackets_cons (graph : Graph) (e : PathElement) (els : List PathElement) :
    brackets graph (e :: els) = (bracket? graph e).toList ++ brackets graph els := by
  rw [← brackets_singleton, ← brackets_append, List.singleton_append]

theorem ownScope_ne_nil_iff : ownScope graph g e inside ≠ [] ↔ bracket? graph e = some U ∧
    Nests graph inside := by
  unfold ownScope bracket?
  cases graph.kind e.node with
  | ruleStart => by_cases h : Nests graph inside <;> simp [h]
  | _ => simp

/-- Without an open instance no part at the end opens more than it closes. -/
theorem count_le_of_openScopes (h : openScopes graph g els = []) (front behind : List DyckStep)
    (hels : brackets graph els = front ++ behind) : behind.count U ≤ behind.count D := by
  induction els generalizing front behind with
  | nil =>
    rw [(List.append_eq_nil_iff.mp hels.symm).2]
    exact le_refl _
  | cons e els ih =>
    obtain ⟨hinside, hown⟩ := List.append_eq_nil_iff.mp h
    rw [brackets_cons] at hels
    cases hb : bracket? graph e with
    | none =>
      rw [hb] at hels
      exact ih hinside _ _ hels
    | some step =>
      rw [hb] at hels
      rcases front with _ | ⟨x, front⟩
      · obtain rfl : behind = step :: brackets graph els := hels.symm
        have hall := ih hinside [] (brackets graph els) rfl
        cases step with
        | D => simpa using Nat.le_succ_of_le hall
        | U =>
          have hnests : ¬Nests graph els := fun hnests => ownScope_ne_nil_iff.mpr ⟨hb, hnests⟩ hown
          obtain ⟨closed, rest, hrest, hlt⟩ := IsFront.exists_of_not hnests
          have hle := ih hinside _ _ hrest
          rw [hrest]
          simp only [List.count_cons, List.count_append]
          simp
          omega
      · exact ih hinside _ _ (List.cons.inj hels).2

/-- An open instance has a start that nothing behind it closes. -/
theorem exists_of_openScopes (h : openScopes graph g els ≠ []) :
    ∃ front behind, brackets graph els = front ++ U :: behind ∧ IsFront behind := by
  induction els with
  | nil => exact absurd rfl h
  | cons e els ih =>
    rw [brackets_cons]
    by_cases hinside : openScopes graph g els = []
    · rw [openScopes, hinside, List.nil_append] at h
      obtain ⟨hb, hnests⟩ := ownScope_ne_nil_iff.mp h
      exact ⟨[], brackets graph els, by rw [hb]; rfl, hnests⟩
    · obtain ⟨front, behind, hels, hbehind⟩ := ih hinside
      exact ⟨(bracket? graph e).toList ++ front, behind, by rw [hels, List.append_assoc], hbehind⟩

theorem count_lt_of_openScopes (hnests : Nests graph els) (h : openScopes graph g els ≠ []) :
    (brackets graph els).count D < (brackets graph els).count U := by
  obtain ⟨front, behind, hels, hbehind⟩ := exists_of_openScopes h
  rw [Nests, hels] at hnests
  have hfront := IsFront.count_le (IsFront.of_append hnests)
  have hle := hbehind.count_le
  rw [hels]
  simp only [List.count_append, List.count_cons]
  simp
  omega

theorem balanced_iff_openScopes (g : Grammar) (h : Nests graph els) :
    Balanced graph els ↔ openScopes graph g els = [] := by
  rw [balanced_iff]
  constructor
  · rintro ⟨-, hcount⟩
    by_contra hne
    exact absurd (count_lt_of_openScopes h hne) (by omega)
  · intro hnil
    exact ⟨h, le_antisymm (count_le_of_openScopes hnil [] _ rfl) (IsFront.count_le h)⟩

/-- What one more element does to the scopes of the open instances. -/
def pass (graph : Graph) (g : Grammar) (e : PathElement) (scopes : List Env) : List Env :=
  match graph.kind e.node, e.token with
  | .ruleStart rule _ _, _ => g.ruleVars rule :: scopes
  | .ruleEnd .., _ => scopes.tail
  | .slot _ _ (some hook), some t => scopes.modifyHead (hook.apply · t)
  | _, _ => scopes

theorem nests_concat (h : bracket? graph e ≠ some D) :
    Nests graph (els ++ [e]) ↔ Nests graph els := by
  unfold Nests
  rw [brackets_append, brackets_singleton]
  refine ⟨IsFront.of_append, fun hels => ?_⟩
  cases hb : bracket? graph e with
  | none => simpa using hels
  | some step =>
    cases step with
    | U => exact IsFront.concat_U hels
    | D => exact absurd hb h

/-- An instance can be closed where one is open. -/
theorem nests_concat_end (g : Grammar) (h : bracket? graph e = some D) :
    Nests graph (els ++ [e]) ↔ Nests graph els ∧ openScopes graph g els ≠ [] := by
  have hcount : Nests graph (els ++ [e]) ↔
      Nests graph els ∧ (brackets graph els).count D < (brackets graph els).count U := by
    unfold Nests
    rw [brackets_append, brackets_singleton, h]
    exact IsFront.concat_D_iff
  rw [hcount]
  refine and_congr_right fun hnests => ⟨fun hlt hnil => ?_, count_lt_of_openScopes hnests⟩
  exact absurd (count_le_of_openScopes hnil [] _ rfl) (not_le.mpr hlt)

theorem ownScope_eq_nil (h : ¬Nests graph els) (g : Grammar) (x : PathElement) :
    ownScope graph g x els = [] := by
  by_contra hne
  exact h (ownScope_ne_nil_iff.mp hne).2

/-- Where an element closes nothing, an instance stays open, and its scope may be changed. -/
theorem ownScope_concat (h : bracket? graph e ≠ some D) (x : PathElement) (els : List PathElement) :
    ownScope graph g x (els ++ [e]) = (ownScope graph g x els).map (hooked graph els e) := by
  unfold ownScope
  split
  · rw [scopeBehind_concat, List.nil_append]
    by_cases hnests : Nests graph els
    · rw [if_pos hnests, if_pos ((nests_concat h).mpr hnests), List.map_singleton]
    · rw [if_neg hnests, if_neg (mt (nests_concat h).mp hnests), List.map_nil]
  · rfl

theorem hooked_of_bracket? (h : bracket? graph e ≠ none) (els : List PathElement) (env : Env) :
    hooked graph els e env = env := by
  unfold hooked
  split
  · next hk _ => exact absurd (by rw [bracket?, hk]) h
  · rfl

/-- A rule end closes the innermost instance, which is the one that starts in
front if no other is open. -/
theorem ownScope_concat_end (h : bracket? graph e = some D) (x : PathElement)
    (els : List PathElement) : ownScope graph g x (els ++ [e]) =
      if openScopes graph g els = [] then [] else ownScope graph g x els := by
  by_cases hnests : Nests graph els
  · by_cases hnil : openScopes graph g els = []
    · rw [if_pos hnil]
      exact ownScope_eq_nil (fun hconcat => ((nests_concat_end g h).mp hconcat).2 hnil) g x
    · have hconcat := (nests_concat_end g h).mpr ⟨hnests, hnil⟩
      rw [if_neg hnil]
      unfold ownScope
      simp only [if_pos hconcat, if_pos hnests, scopeBehind_concat,
        hooked_of_bracket? (e := e) (by rw [h]; nofun)]
  · rw [ownScope_eq_nil hnests, ite_self]
    exact ownScope_eq_nil (fun hconcat => hnests ((nests_concat_end g h).mp hconcat).1) g x

theorem pass_of_end (h : bracket? graph e = some D) (scopes : List Env) :
    pass graph g e scopes = scopes.tail := by
  unfold bracket? at h
  unfold pass
  cases hk : graph.kind e.node with
  | ruleEnd => rfl
  | _ =>
    rw [hk] at h
    exact absurd h (by simp)

/-- What one more element does to the scopes of the open instances, it does to those inside the
first of some elements and to the one that this starts. -/
theorem pass_append_ownScope (e x : PathElement) (els : List PathElement) :
    pass graph g e (openScopes graph g els ++ ownScope graph g x els) =
      pass graph g e (openScopes graph g els) ++ ownScope graph g x (els ++ [e]) := by
  have hsingle : ownScope graph g x els = [] ∨ Nests graph els ∧
      ∃ scope, ownScope graph g x els = [scope] := by
    unfold ownScope
    split
    · by_cases hnests : Nests graph els <;> simp [hnests]
    · exact .inl rfl
  by_cases hend : bracket? graph e = some D
  · rw [pass_of_end hend, pass_of_end hend, ownScope_concat_end hend]
    by_cases hnil : openScopes graph g els = []
    · rw [hnil, if_pos rfl]
      rcases hsingle with hown | ⟨-, scope, hown⟩ <;> rw [hown] <;> rfl
    · rw [if_neg hnil, List.tail_append_of_ne_nil hnil]
  · rw [ownScope_concat hend]
    rcases hsingle with hown | ⟨hnests, scope, hown⟩
    · rw [hown, List.map_nil, List.append_nil, List.append_nil]
    · rw [hown, List.map_singleton]
      have hbalanced := balanced_iff_openScopes g hnests
      unfold pass hooked
      cases hk : graph.kind e.node with
      | ruleEnd => exact absurd (by rw [bracket?, hk]) hend
      | ruleStart | junction | gate | switch => rfl
      | slot type ident hook =>
        cases hook with
        | none => rfl
        | some hook =>
          cases e.token with
          | none => rfl
          | some t =>
            by_cases hnil : openScopes graph g els = []
            · simp [hnil, hbalanced.mpr hnil]
            · obtain ⟨first, rest, hcons⟩ := List.exists_cons_of_ne_nil hnil
              simp [hcons, mt hbalanced.mp hnil]

theorem openScopes_concat (els : List PathElement) (e : PathElement) :
    openScopes graph g (els ++ [e]) = pass graph g e (openScopes graph g els) := by
  induction els with
  | nil =>
    have hnests : Nests graph ([] : List PathElement) := ⟨0, List.nil_prefix⟩
    simp only [List.nil_append, openScopes, ownScope, pass, if_pos hnests]
    cases graph.kind e.node with
    | ruleStart | ruleEnd | junction | gate | switch => rfl
    | slot type ident hook => cases hook <;> cases e.token <;> rfl
  | cons x els ih =>
    rw [List.cons_append, openScopes, ih, openScopes, pass_append_ownScope]

/-! ## Paths that are built by pushes -/

/-- A path to which elements were pushed one by one, while nodes may have been added to the
graph. -/
inductive Built (g : Grammar) : Graph → Path → Prop
  | empty {graph : Graph} : Built g graph {}
  | push {a b : Graph} {p : Path} {node : NodeId} {token : Option Token} :
      Built g a p → a ≤ b → node < b.size → Built g b (p.push b g node token)

theorem Built.eq_replay (h : Built g graph p) :
    p = replay graph g p.elements ∧ ∀ e ∈ p.elements, e.node < graph.size := by
  induction h with
  | empty => exact ⟨rfl, nofun⟩
  | @push a b p node token _ hle hnode ih =>
    obtain ⟨hp, hlt⟩ := ih
    constructor
    · rw [elements_push, replay_cons, replay_of_le hle hlt, ← hp]
    · intro e he
      rcases List.mem_cons.mp he with rfl | he
      · exact hnode
      · exact lt_of_lt_of_le (hlt e he) hle.1

theorem opened_push (p : Path) (graph : Graph) (g : Grammar) (e : PathElement) :
    Scope.opened 0 (p.push graph g e.node e.token).scopes =
      pass graph g e (Scope.opened 0 p.scopes) := by
  unfold push pass
  cases graph.kind e.node with
  | ruleStart | junction | gate | switch => rfl
  | ruleEnd => exact Scope.opened_succ 0 p.scopes
  | slot type ident hook =>
    cases hook with
    | none => rfl
    | some hook =>
      cases e.token with
      | none => rfl
      | some t => exact Scope.opened_update _ 0 p.scopes

/-- What is not hidden on the flat stack are the scopes of the open instances. -/
theorem opened_replay (graph : Graph) (g : Grammar) (els : List PathElement) :
    Scope.opened 0 (replay graph g els).scopes = openScopes graph g els.reverse := by
  induction els with
  | nil => rfl
  | cons e els ih => rw [replay_cons, opened_push, ih, List.reverse_cons, openScopes_concat]

/-- The scopes above that of an open instance: one for each bracket among the
elements behind its start, which together hide as many scopes as there are instances
closed and not opened among them. -/
structure Above (graph : Graph) (inside : List PathElement) (above : List Scope) : Prop where
  length_eq : above.length = (brackets graph inside).length
  hiddenBehind_eq (hidden : Nat) : Scope.hiddenBehind hidden above =
    if (brackets graph inside).count U ≤ hidden + (brackets graph inside).count D then
      some (hidden + (brackets graph inside).count D - (brackets graph inside).count U)
    else none

namespace Above

variable {above : List Scope}

theorem start (h : Above graph inside above) (hnests : Nests graph inside)
    (hb : bracket? graph e = some U) (env : Env) :
    Above graph (inside ++ [e]) (.active env :: above) where
  length_eq := by simp [brackets_singleton, hb, h.length_eq]
  hiddenBehind_eq hidden := by
    have hle : (brackets graph inside).count D ≤ (brackets graph inside).count U :=
      IsFront.count_le hnests
    have hU : (brackets graph (inside ++ [e])).count U = (brackets graph inside).count U + 1 := by
      simp [brackets_singleton, hb]
    have hD : (brackets graph (inside ++ [e])).count D = (brackets graph inside).count D := by
      simp [brackets_singleton, hb]
    rw [hU, hD]
    cases hidden with
    | zero => rw [Scope.hiddenBehind, if_neg (by omega)]
    | succ hidden =>
      rw [Scope.hiddenBehind, h.hiddenBehind_eq]
      split_ifs <;> first | rfl | omega | exact congrArg some (by omega)

theorem stop (h : Above graph inside above) (hb : bracket? graph e = some D) :
    Above graph (inside ++ [e]) (.exited :: above) where
  length_eq := by simp [brackets_singleton, hb, h.length_eq]
  hiddenBehind_eq hidden := by
    have hU : (brackets graph (inside ++ [e])).count U = (brackets graph inside).count U := by
      simp [brackets_singleton, hb]
    have hD : (brackets graph (inside ++ [e])).count D = (brackets graph inside).count D + 1 := by
      simp [brackets_singleton, hb]
    rw [hU, hD, Scope.hiddenBehind, h.hiddenBehind_eq, Nat.add_right_comm, Nat.add_assoc]

theorem keep (h : Above graph inside above) (hb : bracket? graph e = none) :
    Above graph (inside ++ [e]) above := by
  have hbrackets : brackets graph (inside ++ [e]) = brackets graph inside := by
    simp [brackets_singleton, hb]
  exact ⟨by rw [hbrackets, h.length_eq], by rw [hbrackets]; exact h.hiddenBehind_eq⟩

theorem update (h : Above graph inside above) (f : Env → Env) :
    Above graph inside (Scope.update f 0 above) :=
  ⟨(Scope.length_update f 0 above).trans h.length_eq,
    fun hidden => (Scope.hiddenBehind_update f hidden 0 above).trans (h.hiddenBehind_eq hidden)⟩

theorem hiddenBehind_zero (h : Above graph inside above) (hnests : Nests graph inside) :
    Scope.hiddenBehind 0 above = if Balanced graph inside then some 0 else none := by
  have hle : (brackets graph inside).count D ≤ (brackets graph inside).count U :=
    IsFront.count_le hnests
  have hbalanced : Balanced graph inside ↔
      Nests graph inside ∧
      (brackets graph inside).count U = (brackets graph inside).count D := balanced_iff
  rw [h.hiddenBehind_eq]
  by_cases hb : Balanced graph inside
  · have hcount := (hbalanced.mp hb).2
    rw [if_pos hb, if_pos (by omega), Nat.zero_add, hcount, Nat.sub_self]
  · rw [if_neg hb, if_neg fun hcount => hb (hbalanced.mpr ⟨hnests, by omega⟩)]

end Above

theorem exists_above {rule : RuleId} {ident : Option String} {stop : NodeId} (g : Grammar)
    (before : List PathElement) (hstart : graph.kind e.node = .ruleStart rule ident stop)
    (hnests : Nests graph inside) :
    ∃ above, Above graph inside above ∧
      (replay graph g (before ++ e :: inside).reverse).scopes =
        above ++ .active (scopeBehind graph [] inside (g.ruleVars rule)) ::
          (replay graph g before.reverse).scopes := by
  induction inside using List.reverseRecOn with
  | nil =>
    refine ⟨[], ⟨rfl, fun hidden => rfl⟩, ?_⟩
    rw [List.reverse_append, List.reverse_singleton, List.singleton_append, replay_cons]
    simp only [push, hstart]
    rfl
  | append_singleton els x ih =>
    have hels : Nests graph els := IsFront.of_append (by rwa [Nests, brackets_append] at hnests)
    obtain ⟨above, habove, hscopes⟩ := ih hels
    have hpath :
        (before ++ e :: (els ++ [x])).reverse = x :: (before ++ e :: els).reverse := by simp
    rw [hpath, replay_cons, scopeBehind_concat, List.nil_append]
    unfold push hooked
    simp only [hscopes]
    cases hk : graph.kind x.node with
    | ruleStart rule' => exact ⟨_, habove.start hels (by rw [bracket?, hk]) _, rfl⟩
    | ruleEnd => exact ⟨_, habove.stop (by rw [bracket?, hk]), rfl⟩
    | junction | gate | switch => exact ⟨above, habove.keep (by rw [bracket?, hk]), rfl⟩
    | slot type ident' hook =>
      have hb : bracket? graph x = none := by rw [bracket?, hk]
      cases hook with
      | none => exact ⟨above, habove.keep hb, rfl⟩
      | some hook =>
        cases x.token with
        | none => exact ⟨above, habove.keep hb, rfl⟩
        | some t =>
          simp only [Scope.update_append, habove.hiddenBehind_zero hels]
          by_cases hbalanced : Balanced graph els
          · rw [if_pos hbalanced, if_pos hbalanced]
            exact ⟨above, habove.keep hb, rfl⟩
          · rw [if_neg hbalanced, if_neg hbalanced]
            exact ⟨_, (habove.update _).keep hb, rfl⟩

/-- Some elements, split at the start of the innermost instance that is open behind them: all
instances that start behind it have ended. -/
structure Innermost (graph : Graph) (els before : List PathElement) (e : PathElement)
    (inside : List PathElement) (rule : RuleId) : Prop where
  eq_append : els = before ++ e :: inside
  start : ∃ ident stop, graph.kind e.node = .ruleStart rule ident stop
  balanced : Balanced graph inside

/-- The innermost open instance is there if any is, and its scope comes first. -/
theorem exists_innermost (h : openScopes graph g els ≠ []) : ∃ before e inside rule,
    Innermost graph els before e inside rule ∧
    (openScopes graph g els).head? = some (scopeBehind graph [] inside (g.ruleVars rule)) := by
  induction els with
  | nil => exact absurd rfl h
  | cons x els ih =>
    rw [openScopes] at h ⊢
    by_cases hinside : openScopes graph g els = []
    · rw [hinside, List.nil_append] at h ⊢
      have hnests := (ownScope_ne_nil_iff.mp h).2
      unfold ownScope at h ⊢
      cases hk : graph.kind x.node with
      | ruleStart rule ident stop =>
        refine ⟨[], x, els, rule,
          ⟨rfl, ⟨ident, stop, hk⟩, (balanced_iff_openScopes g hnests).mpr hinside⟩, ?_⟩
        simp only [if_pos hnests, List.head?_cons]
      | _ => simp [hk] at h
    · obtain ⟨before, e, inside, rule, hinner, hhead⟩ := ih hinside
      refine ⟨x :: before, e, inside, rule, ⟨?_, hinner.start, hinner.balanced⟩, ?_⟩
      · rw [hinner.eq_append, List.cons_append]
      · rw [List.head?_append, hhead, Option.some_or]

theorem toList_push (p : Path) (graph : Graph) (g : Grammar) (node : NodeId)
    (token : Option Token) : (p.push graph g node token).toList = p.toList ++ [⟨node, token⟩] := by
  rw [toList, elements_push, List.reverse_cons, toList]

theorem Built.opened_eq (h : Built g graph p) :
    Scope.opened 0 p.scopes = openScopes graph g p.toList := by
  have hopened := opened_replay graph g p.elements
  rwa [← h.eq_replay.1] at hopened

theorem scopes_push_hook {type : TokenType} {ident : Option String} {hook : Hook} {t : Token}
    (hslot : graph.kind node = .slot type ident (some hook)) :
    (p.push graph g node (some t)).scopes = Scope.update (hook.apply · t) 0 p.scopes := by
  simp only [push, hslot]

/-- Variables are looked up in the scopes of the rule instances that are still open, the innermost
of those that define the name first.  A hook changes the first of these scopes; on the stack, the
scopes of ended instances lie above it, as many as there are starts and ends behind its start, and
neither these nor those below it change. -/
theorem var?_eq_findSome? (h : Built g graph p) :
    (∀ name, p.var? name = (openScopes graph g p.toList).findSome? (·.get? name)) ∧
    ∀ node type ident hook t, graph.kind node = .slot type ident (some hook) →
      openScopes graph g (p.push graph g node (some t)).toList =
        (openScopes graph g p.toList).modifyHead (hook.apply · t) ∧
      ((openScopes graph g p.toList = [] ∧ (p.push graph g node (some t)).scopes = p.scopes) ∨
        ∃ before e inside rule above, Innermost graph p.toList before e inside rule ∧
          above.length = (brackets graph inside).length ∧
          p.scopes = above ++ .active (scopeBehind graph [] inside (g.ruleVars rule)) ::
            (replay graph g before.reverse).scopes ∧
          (p.push graph g node (some t)).scopes =
            above ++ .active (hook.apply (scopeBehind graph [] inside (g.ruleVars rule)) t) ::
              (replay graph g before.reverse).scopes) := by
  refine ⟨fun name => ?_, fun node type ident hook t hslot => ⟨?_, ?_⟩⟩
  · rw [var?, Scope.lookup_eq_findSome?, h.opened_eq]
  · rw [toList_push, openScopes_concat]
    simp only [pass, hslot]
  · rw [scopes_push_hook hslot]
    by_cases hnone : openScopes graph g p.toList = []
    · refine .inl ⟨hnone, Scope.update_eq_self fun env hcurrent => ?_⟩
      rw [Scope.current?_eq_head?, h.opened_eq, hnone] at hcurrent
      exact absurd hcurrent nofun
    · obtain ⟨before, e, inside, rule, hinner, -⟩ := exists_innermost hnone
      obtain ⟨ident', stop, hstart⟩ := hinner.start
      have hnests := (balanced_iff.mp hinner.balanced).1
      obtain ⟨above, habove, hscopes⟩ := exists_above g before hstart hnests
      have hp : p.scopes = above ++ .active (scopeBehind graph [] inside (g.ruleVars rule)) ::
          (replay graph g before.reverse).scopes := by
        rw [← hscopes, ← hinner.eq_append, toList, List.reverse_reverse, ← h.eq_replay.1]
      refine .inr ⟨before, e, inside, rule, above, hinner, habove.length_eq, hp, ?_⟩
      rw [hp, Scope.update_append, habove.hiddenBehind_zero hnests, if_pos hinner.balanced]
      rfl

end Path

namespace Sample.Commands

/-- The boundaries of the script, the word with the hook, and the boundaries of a command. -/
def oneCommand : Graph :=
  ⟨#[⟨.ruleEnd 1 none, []⟩, ⟨.ruleStart 1 none 0, []⟩, ⟨.slot strict none (some setStrict), []⟩,
    ⟨.ruleStart 0 none 4, []⟩, ⟨.ruleEnd 0 none, []⟩]⟩

/-- The path behind the command: the command has ended and the script is still open. -/
def behindCommand : Path :=
  (((({} : Path).push oneCommand grammar 1 none).push oneCommand grammar 3 none).push oneCommand
    grammar 4 none)

/-- The hook runs behind a command that has ended.  It changes the variable of the
script, the one open instance. -/
theorem var?_eq_findSome?_behindCommand :
    Path.openScopes oneCommand grammar behindCommand.toList = [script.vars] ∧
    behindCommand.var? "strict" = some (.bool false) ∧
    Path.openScopes oneCommand grammar
      (behindCommand.push oneCommand grammar 2 (some ⟨"strict", [strict], ⟨1, 1⟩, ⟨1, 6⟩⟩)).toList =
        [script.vars.set "strict" (.bool true)] := by
  have hbuilt : Path.Built grammar oneCommand behindCommand :=
    ((Path.Built.empty.push (le_refl _) (by decide)).push (le_refl _) (by decide)).push
      (le_refl _) (by decide)
  have hopen : Path.openScopes oneCommand grammar behindCommand.toList = [script.vars] := by
    decide +kernel
  obtain ⟨hlookup, hhook⟩ := Path.var?_eq_findSome? hbuilt
  refine ⟨hopen, ?_, ?_⟩
  · rw [hlookup, hopen]
    decide +kernel
  · rw [(hhook 2 strict none setStrict _ rfl).1, hopen]
    rfl

end Sample.Commands

end GrammarGraph
