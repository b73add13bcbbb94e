import Mathlib.Order.WellFounded

/-!
# An order on stacks

The entries of a stack, the top first, are a label and the number of tries that are left to them.  A
stack gets lower when an entry with a smaller label is put on top, or when entries are taken off and
the one below them uses up a try.  A new entry may have any number of tries, so no sum bounds the
steps; the order is well-founded all the same (`Stack.wellFounded_lower`).
-/

namespace GrammarGraph

namespace Stack

variable {α : Type} {r : α → α → Prop} {a a' : α} {m n : ℕ} {x : α × ℕ}
  {rest stack stack' : List (α × ℕ)}

/-- Entries are taken off and the one below them uses up a try.  Its label stays, or becomes smaller
than that of the entry below. -/
inductive Retries (r : α → α → Prop) : List (α × ℕ) → List (α × ℕ) → Prop
  | intro {a a' : α} {m n : ℕ} {rest : List (α × ℕ)} (above : List (α × ℕ)) :
      m < n → (a' = a ∨ ∀ x, rest.head? = some x → r a' x.1) →
      Retries r ((a', m) :: rest) (above ++ (a, n) :: rest)

/-- A stack gets lower: an entry with a smaller label is put on top, or an older one uses up a
try. -/
inductive Lower (r : α → α → Prop) : List (α × ℕ) → List (α × ℕ) → Prop
  | push {a a' : α} {m n : ℕ} {rest : List (α × ℕ)} :
      r a' a → Lower r ((a', m) :: (a, n) :: rest) ((a, n) :: rest)
  | retry {stack stack' : List (α × ℕ)} : Retries r stack' stack → Lower r stack' stack

/-- More entries may lie above. -/
theorem Retries.cons (h : Retries r stack' stack) (x : α × ℕ) : Retries r stack' (x :: stack) := by
  obtain ⟨above, hlt, hlabel⟩ := h
  exact .intro (x :: above) hlt hlabel

/-- A retry concerns the top entry, or one below it. -/
theorem retries_cons (h : Retries r stack' ((a, n) :: rest)) :
    (∃ a' m, stack' = (a', m) :: rest ∧ m < n ∧ (a' = a ∨ ∀ x, rest.head? = some x → r a' x.1)) ∨
      Retries r stack' rest := by
  generalize hstack : (a, n) :: rest = stack at h
  obtain ⟨above, hlt, hlabel⟩ := h
  cases above with
  | nil =>
    obtain ⟨hx, rfl⟩ := List.cons.inj hstack
    obtain ⟨rfl, rfl⟩ := Prod.mk.inj hx
    exact .inl ⟨_, _, rfl, hlt, hlabel⟩
  | cons y above =>
    obtain ⟨-, rfl⟩ := List.cons.inj hstack
    exact .inr (.intro above hlt hlabel)

/-- Every stack that a retry leads to is accessible. -/
def Settled (r : α → α → Prop) (stack : List (α × ℕ)) : Prop := ∀ stack', Retries r stack' stack →
  Acc (Lower r) stack'

theorem settled_cons (hrest : Settled r rest) (h : ∀ a' m, m < n →
      (a' = a ∨ ∀ x, rest.head? = some x → r a' x.1) → Acc (Lower r) ((a', m) :: rest)) :
    Settled r ((a, n) :: rest) := by
  intro stack' hretries
  rcases retries_cons hretries with ⟨a', m, rfl, hlt, hlabel⟩ | hretries
  · exact h a' m hlt hlabel
  · exact hrest stack' hretries

theorem acc_cons (h : Settled r (x :: rest))
    (hpush : ∀ m a, r a x.1 → Acc (Lower r) ((a, m) :: x :: rest)) : Acc (Lower r) (x :: rest) := by
  refine Acc.intro _ ?_
  intro stack' hlower
  cases hlower with
  | push hr => exact hpush _ _ hr
  | retry hretries => exact h stack' hretries

/-- Whatever is put on top of a settled stack is accessible: the outer induction is on the label of
the top entry, the inner one on the tries of the new entry. -/
theorem acc_push (hr : WellFounded r) (b : α) :
    ∀ {k : ℕ} {rest : List (α × ℕ)}, Settled r ((b, k) :: rest) → ∀ m a, r a b →
    Acc (Lower r) ((a, m) :: (b, k) :: rest) := by
  induction b using hr.induction with
  | _ b ihb =>
    intro k rest hsettled m
    induction m using Nat.strong_induction_on with
    | _ m ihm =>
      intro a hab
      have htop : Settled r ((a, m) :: (b, k) :: rest) := by
        refine settled_cons hsettled ?_
        intro a' m' hlt hlabel
        rcases hlabel with rfl | hlabel
        · exact ihm m' hlt a' hab
        · exact ihm m' hlt a' (hlabel (b, k) rfl)
      exact acc_cons htop fun m' a' ha' => ihb a hab htop m' a' ha'

theorem acc_of_settled (hr : WellFounded r) (h : Settled r ((a, n) :: rest)) :
    Acc (Lower r) ((a, n) :: rest) :=
  acc_cons h fun m a' ha' => acc_push hr a h m a' ha'

theorem settled_nil : Settled r [] := by
  intro stack' h
  generalize hstack : ([] : List (α × ℕ)) = stack at h
  obtain ⟨above, -, -⟩ := h
  exact absurd hstack.symm (List.append_ne_nil_of_right_ne_nil _ (List.cons_ne_nil _ _))

/-- The lowest entry can change its label freely, so its tries alone count. -/
theorem settled_singleton (hr : WellFounded r) (n : ℕ) : ∀ a, Settled r [(a, n)] := by
  induction n using Nat.strong_induction_on with
  | _ n ih =>
    exact fun a => settled_cons settled_nil fun a' m hlt _ => acc_of_settled hr (ih m hlt a')

theorem settled (hr : WellFounded r) : ∀ stack : List (α × ℕ), Settled r stack
  | [] => settled_nil
  | [(a, n)] => settled_singleton hr n a
  | (a, n) :: (b, k) :: rest => by
    have hrest := settled hr ((b, k) :: rest)
    induction n using Nat.strong_induction_on with
    | _ n ih =>
      refine settled_cons hrest ?_
      intro a' m hlt hlabel
      rcases hlabel with rfl | hlabel
      · exact acc_of_settled hr (ih m hlt)
      · exact acc_push hr b hrest m a' (hlabel (b, k) rfl)

/-- The order on stacks is well-founded. -/
theorem wellFounded_lower (hr : WellFounded r) : WellFounded (Lower r) := by
  refine ⟨?_⟩
  intro stack
  cases stack with
  | nil =>
    refine Acc.intro _ ?_
    intro stack' hlower
    cases hlower with
    | retry hretries => exact settled_nil stack' hretries
  | cons x rest => exact acc_of_settled hr (settled hr (x :: rest))

end Stack

end GrammarGraph
