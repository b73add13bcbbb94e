import GrammarGraph.Proofs.Successors
import GrammarGraph.Proofs.Templates
import GrammarGraph.Sample

/-!
# Links to the ends of rules

A body may link to the plug of a reference, which is the end of a rule.  Along such a link a path
ends an instance that it never started.  Bodies that link to sockets alone keep the ends of rules
apart: the only link to one is the link that leads out of the body (`Graph.endsApart_addBody`).

* `Body.EndsApart`, `Grammar.EndsApart`: no link of a body leads to the end of a rule.
* `Body.endsApart_of_atSockets`: all bodies whose clauses name parts by their sockets are like this,
  and so are those of the sample grammars.
-/

namespace GrammarGraph

/-- No link between nodes from `lo` on and below `hi` leads to the end of a rule. -/
def Graph.EndsApart (g : Graph) (lo hi : Nat) : Prop :=
  ∀ id, lo ≤ id → id < hi → ∀ n ∈ g.targets id, lo ≤ n → n < hi → (g.kind n).isRuleEnd = false

instance (g : Graph) (lo hi : Nat) : Decidable (g.EndsApart lo hi) :=
  inferInstanceAs (Decidable
    (∀ id, lo ≤ id → id < hi → ∀ n ∈ g.targets id, lo ≤ n → n < hi → _ = false))

/-- No link of the body leads to the end of a rule, but for the one that is drawn behind its
exit. -/
def Body.EndsApart (body : Body) : Prop := body.template.EndsApart 0 body.template.size

/-- The body of a rule, whatever the context, links to no end of a rule. -/
def Grammar.EndsApart (g : Grammar) : Prop :=
  ∀ rule expand, g.expand? rule = some expand → ∀ ctx, (expand ctx).EndsApart

namespace Graph

variable {a b base g : Graph} {lo hi : Nat} {stop : NodeId} {body : Body}

theorem EndsApart.of_le (hab : a ≤ b) (hhi : hi ≤ a.size) (h : a.EndsApart lo hi) :
    b.EndsApart lo hi := by
  intro id hlo hid n hn hlo' hn'
  rw [targets_of_le hab (lt_of_lt_of_le hid hhi)] at hn
  rw [kind_of_le hab (lt_of_lt_of_le hn' hhi)]
  exact h id hlo hid n hn hlo' hn'

/-- Nothing leads to the ends of the root rule. -/
theorem endsApart_ofGrammar (g : Grammar) : (ofGrammar g).EndsApart 0 2 := by
  intro id _ _ n hn
  rw [targets_ofGrammar] at hn
  exact absurd hn List.not_mem_nil

/-- What holds of the links of a body by itself holds of it in the arena. -/
theorem endsApart_addBody (h : body.EndsApart) (hstop : stop < base.size) :
    (base.addBody body stop).2.EndsApart base.size (base.addBody body stop).2.size := by
  rw [size_addBody]
  intro id hlo hid n hn hlo' hn'
  obtain ⟨i, rfl⟩ := Nat.exists_eq_add_of_le hlo
  obtain ⟨j, rfl⟩ := Nat.exists_eq_add_of_le hlo'
  have hi := Nat.lt_of_add_lt_add_left hid
  have hj := Nat.lt_of_add_lt_add_left hn'
  have hholds := holds_addBody hstop body
  rw [hholds.kind_eq hj, NodeKind.isRuleEnd_moved]
  rcases hholds.mem_targets hi hn with ⟨j', hj', heq⟩ | ⟨-, heq⟩
  · obtain rfl := Nat.add_left_cancel heq
    exact h i (Nat.zero_le _) hi j hj' (Nat.zero_le _) hj
  · exact absurd (heq ▸ hstop) (not_lt.mpr hlo')

/-- The body that a rule start is left into keeps the ends of rules apart. -/
theorem Leaves.endsApart {grammar : Grammar} {id : NodeId} {ctx : Context} {next : List NodeId}
    {rule : RuleId} {ident : Option String} (hg : grammar.EndsApart)
    (h : Leaves a grammar id ctx next b) (hk : a.kind id = .ruleStart rule ident stop)
    (hstop : stop < a.size) : b.EndsApart a.size b.size := by
  obtain ⟨expand, hexpand, rfl⟩ := h.of_ruleStart hk
  exact endsApart_addBody (hg rule expand hexpand ctx) hstop

end Graph

namespace Body

variable {body : Body} {p : Piece}

/-- Clauses that name parts by their sockets draw no link to the end of a rule. -/
theorem endsApart_of_atSockets (h : body.AtSockets) : body.EndsApart := by
  obtain ⟨hends, hparts⟩ := Graph.wires_entry_exit {}
  obtain ⟨hwires, -⟩ := wire_wires body hends hparts fun _ : True => h
  intro id _ _ n hn _ _
  exact (hwires.targets id (Nat.zero_le _) n hn).not_end trivial

theorem endsApart_ofPiece (h : p.AtSockets) : (ofPiece p).EndsApart := by
  refine endsApart_of_atSockets ⟨h, fun r hr => ?_, trivial⟩
  simp only [List.mem_cons, List.not_mem_nil, or_false] at hr
  rcases hr with rfl | rfl | rfl <;> trivial

end Body

namespace Piece

mutual

/-- Regular pieces refer to no parts. -/
theorem atSockets_of_regular : ∀ p : Piece, p.Regular → p.AtSockets
  | .ref _, h | .junction, h | .switch _, h | .guard _, h => h.elim
  | .slot .., _ | .call .., _ => trivial
  | .sequence ps, h | .fork ps, h => allAtSockets_of_regular ps h
  | .repeated _ p, h => atSockets_of_regular p h

theorem allAtSockets_of_regular : ∀ ps : List Piece, AllRegular ps → AllAtSockets ps
  | [], _ => trivial
  | p :: ps, h => ⟨atSockets_of_regular p h.1, allAtSockets_of_regular ps h.2⟩

end

end Piece

theorem Grammar.endsApart_of_atSockets {g : Grammar}
    (h : ∀ rule ∈ g.rules, ∀ expand, rule.expand = some expand → ∀ ctx, (expand ctx).AtSockets) :
    g.EndsApart := by
  intro id expand hexpand ctx
  obtain ⟨rule, hrule, hexpand⟩ := Option.bind_eq_some_iff.mp hexpand
  exact Body.endsApart_of_atSockets (h rule (List.mem_of_getElem? hrule) expand hexpand ctx)

namespace Sample

theorem Loops.endsApart_grammar : Loops.grammar.EndsApart :=
  Grammar.endsApart_of_atSockets (by
    simp [grammar, loop, loops, loopBody, Piece.token, Piece.tokenAs, Piece.rule])

theorem Boundary.endsApart_grammar : Boundary.grammar.EndsApart :=
  Grammar.endsApart_of_atSockets (by
    simp [grammar, inner, boundary, Body.ofPiece, Piece.token, Piece.rule])

theorem Commands.endsApart_grammar : Commands.grammar.EndsApart :=
  Grammar.endsApart_of_atSockets (by
    simp [grammar, command, script, commandBody, Piece.token, Piece.tokenAs, Piece.optional,
      Piece.many, Piece.rule])

end Sample

end GrammarGraph
