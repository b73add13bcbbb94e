import GrammarGraph.Proofs.Shapes
import Mathlib.Computability.RegularExpressions

/-!
# What a piece lets through

The way through a piece passes slots and references.  Leaving a slot gives the token it stands
for, and leaving the start of a reference for its end gives the rule (`Graph.Walk`).  The labels
that the ways through a piece give are the words of a regular expression that has the structure
of the piece (`Piece.expr`): `Piece.read` takes such a word off the front of a walk, and
`Piece.walk` puts one there.
-/

namespace GrammarGraph

open Computability

/-- What is passed on the way through a body. -/
inductive Label where
  | token (type : TokenType) (ident : Option String)
  | rule (rule : RuleId) (ident : Option String)

/-- What leaving a node for the next one in the same body gives. -/
def NodeKind.labels : NodeKind → List Label
  | slot type ident _ => [.token type ident]
  | ruleStart rule ident _ => [.rule rule ident]
  | _ => []

/-- The expression for a repeated one. -/
def Multiplicity.expr {α : Type} (r : RegularExpression α) : Multiplicity → RegularExpression α
  | .zeroOrOne => 1 + r
  | .zeroOrMore => r.star
  | .oneOrMore => r * r.star

namespace Piece

mutual

/-- The labels along the ways through a piece. -/
def expr : Piece → RegularExpression Label
  | slot type ident _ => .char (.token type ident)
  | call rule ident => .char (.rule rule ident)
  | sequence ps => exprInTurn ps
  | fork ps => exprAside ps
  | repeated m p => m.expr (expr p)
  | _ => 0

/-- One piece behind the other. -/
def exprInTurn : List Piece → RegularExpression Label
  | [] => 1
  | p :: ps => expr p * exprInTurn ps

/-- One of the pieces. -/
def exprAside : List Piece → RegularExpression Label
  | [] => 0
  | p :: ps => expr p + exprAside ps

end

end Piece

namespace Graph

variable {graph : Graph} {stop lo n m : NodeId} {N : ℕ} {w u v : List Label}
  {e inner : Element} {p : Piece}

/-- Where a node leads to in its own body: the start of a reference to its end. -/
def onward (graph : Graph) (n : NodeId) : List NodeId :=
  match graph.kind n with
  | .ruleStart _ _ stop => [stop]
  | _ => graph.targets n

/-- A walk of so many steps from a node until it arrives on `stop`, and what it passes. -/
inductive Walk (graph : Graph) (stop : NodeId) : NodeId → ℕ → List Label → Prop
  | done : Walk graph stop stop 0 []
  | hop {n m : NodeId} {N : ℕ} {w : List Label} : stop ≠ n → m ∈ graph.onward n →
      Walk graph stop m N w → Walk graph stop n (N + 1) ((graph.kind n).labels ++ w)

namespace Walk

/-- A walk that has not arrived goes on. -/
theorem cases_hop (h : Walk graph stop n N w) (hn : stop ≠ n) : ∃ m M v, m ∈ graph.onward n ∧
    Walk graph stop m M v ∧ N = M + 1 ∧ w = (graph.kind n).labels ++ v := by
  cases h with
  | done => exact absurd rfl hn
  | hop _ hm hwalk => exact ⟨_, _, _, hm, hwalk, rfl, rfl⟩

theorem eq_of_done (h : Walk graph stop stop N w) : w = [] := by
  cases h with
  | done => rfl
  | hop hn => exact absurd rfl hn

end Walk

theorem onward_of_junction (h : graph.kind n = .junction) : graph.onward n = graph.wired n := by
  simp only [onward, h, targets, NodeKind.targets]

/-- From a junction a walk goes on along a link. -/
theorem Walk.cases_junction (h : Walk graph stop n N w) (hn : stop < n)
    (hk : graph.kind n = .junction) :
    ∃ m M, m ∈ graph.wired n ∧ Walk graph stop m M w ∧ N = M + 1 := by
  obtain ⟨m, M, v, hm, hwalk, rfl, rfl⟩ := h.cases_hop (Nat.ne_of_lt hn)
  rw [onward_of_junction hk] at hm
  rw [hk]
  exact ⟨m, M, hm, hwalk, rfl⟩

theorem Walk.junction (hn : stop < n) (hk : graph.kind n = .junction) (hm : m ∈ graph.wired n)
    (h : Walk graph stop m N w) : Walk graph stop n (N + 1) w := by
  have hwalk := h.hop (Nat.ne_of_lt hn) (onward_of_junction hk ▸ hm)
  rwa [hk] at hwalk

/-- A walk reads a word of the expression, and goes on behind the plug. -/
def Reads (graph : Graph) (stop : NodeId) (r : RegularExpression Label) (e : Element) : Prop :=
  ∀ N w, Walk graph stop e.socket N w → ∃ u v m M, w = u ++ v ∧ u ∈ r.matches' ∧
    m ∈ graph.wired e.plug ∧ Walk graph stop m M v ∧ M < N

/-- Any word of the expression can be passed in front of a walk. -/
def Writes (graph : Graph) (stop : NodeId) (r : RegularExpression Label) (e : Element) : Prop :=
  ∀ u m M v, u ∈ r.matches' → m ∈ graph.wired e.plug → Walk graph stop m M v →
    ∃ N, Walk graph stop e.socket N (u ++ v)

section

variable {r : RegularExpression Label} {mult : Multiplicity}

/-- From a socket that leads into a piece and around it, a walk reads a word of the
piece or goes on behind it. -/
theorem Walk.cases_socket (hwalk : Walk graph stop e.socket N w) (hjoins : Joins graph lo e)
    (hlo : stop < lo) (hsocket : graph.wired e.socket = [inner.socket, e.plug])
    (hback : graph.wired inner.plug = [n]) (h : Reads graph stop r inner) :
    (∃ u v M, w = u ++ v ∧ u ∈ r.matches' ∧ Walk graph stop n M v ∧ M < N) ∨
      ∃ m M, m ∈ graph.wired e.plug ∧ Walk graph stop m M w ∧ M < N := by
  obtain ⟨m, M, hm, hwalk, rfl⟩ :=
    hwalk.cases_junction (lt_of_lt_of_le hlo hjoins.le_socket) hjoins.socket
  rw [hsocket, List.mem_pair] at hm
  rcases hm with rfl | rfl
  · obtain ⟨u, v, m, M', rfl, hu, hm, hwalk, hlt⟩ := h M w hwalk
    rw [hback, List.mem_singleton] at hm
    subst hm
    exact .inl ⟨u, v, M', rfl, hu, hwalk, Nat.lt_succ_of_lt hlt⟩
  · obtain ⟨m, M', hm, hrest, rfl⟩ :=
      hwalk.cases_junction (lt_of_lt_of_le hlo hjoins.le_plug) hjoins.plug
    exact .inr ⟨m, M', hm, hrest, by omega⟩

/-- Behind the first iteration come any number of them. -/
theorem reads_iterations (hplug : stop < e.plug) (hk : graph.kind e.plug = .junction)
    (hback : graph.wired inner.plug = [e.plug, inner.socket]) (h : Reads graph stop r inner) :
    Reads graph stop (r * r.star) ⟨inner.socket, e.plug⟩ := by
  intro N
  induction N using Nat.strong_induction_on with
  | _ N ih =>
    intro w hwalk
    obtain ⟨u, v, m, M, rfl, hu, hm, hwalk, hlt⟩ := h N w hwalk
    rw [hback, List.mem_pair] at hm
    rcases hm with rfl | rfl
    · obtain ⟨m, M', hm, hrest, rfl⟩ := hwalk.cases_junction hplug hk
      refine ⟨u, v, m, M', rfl, ?_, hm, hrest, by omega⟩
      rw [← List.append_nil u]
      exact Language.append_mem_mul hu (Language.nil_mem_kstar _)
    · obtain ⟨u', v', m, M', rfl, hu', hm, hwalk, hlt'⟩ := ih M hlt v hwalk
      refine ⟨u ++ u', v', m, M', (List.append_assoc _ _ _).symm, Language.append_mem_mul hu ?_, hm,
        hwalk, by omega⟩
      rw [RegularExpression.matches'_star, ← Language.one_add_self_mul_kstar_eq_kstar]
      exact .inr hu'

/-- The plug of a repeated piece leads on, or into one more iteration. -/
theorem reads_repeated (hjoins : Joins graph lo e) (hlo : stop < lo)
    (hrepeats : Repeats graph e inner mult) (h : Reads graph stop r inner) :
    Reads graph stop (mult.expr r) e := by
  have hplug : stop < e.plug := lt_of_lt_of_le hlo hjoins.le_plug
  cases mult with
  | zeroOrOne =>
    intro N w hwalk
    rcases hwalk.cases_socket hjoins hlo hrepeats.1 hrepeats.2 h with
      ⟨u, v, M, rfl, hu, hrest, hlt⟩ | ⟨m, M, hm, hrest, hlt⟩
    · obtain ⟨m, M', hm, hbehind, rfl⟩ := hrest.cases_junction hplug hjoins.plug
      exact ⟨u, v, m, M', rfl, .inr hu, hm, hbehind, by omega⟩
    · exact ⟨[], w, m, M, rfl, .inl rfl, hm, hrest, hlt⟩
  | zeroOrMore =>
    -- Each iteration makes the walk shorter.
    intro N
    induction N using Nat.strong_induction_on with
    | _ N ih =>
      intro w hwalk
      rcases hwalk.cases_socket hjoins hlo hrepeats.1 hrepeats.2 h with
        ⟨u, v, M, rfl, hu, hrest, hlt⟩ | ⟨m, M, hm, hrest, hlt⟩
      · obtain ⟨u', v', m, M', rfl, hu', hm, hwalk, hlt'⟩ := ih M hlt v hrest
        refine ⟨u ++ u', v', m, M', (List.append_assoc _ _ _).symm, ?_, hm, hwalk, by omega⟩
        rw [Multiplicity.expr, RegularExpression.matches'_star,
          ← Language.one_add_self_mul_kstar_eq_kstar]
        exact .inr (Language.append_mem_mul hu hu')
      · exact ⟨[], w, m, M, rfl, Language.nil_mem_kstar _, hm, hrest, hlt⟩
  | oneOrMore =>
    intro N w hwalk
    obtain ⟨m, M, hm, hwalk, rfl⟩ :=
      hwalk.cases_junction (lt_of_lt_of_le hlo hjoins.le_socket) hjoins.socket
    rw [hrepeats.1, List.mem_singleton] at hm
    subst hm
    obtain ⟨u, v, m, M', rfl, hu, hm, hwalk, hlt⟩ :=
      reads_iterations hplug hjoins.plug hrepeats.2 h M w hwalk
    exact ⟨u, v, m, M', rfl, hu, hm, hwalk, by omega⟩

/-- Any number of iterations can be passed, one behind the other. -/
theorem writes_iterations (hback : graph.wired inner.plug = [e.plug, inner.socket])
    (h : Writes graph stop r inner) (hlast : Walk graph stop e.plug N v) :
    ∀ us : List (List Label), (∀ u ∈ us, u ∈ r.matches') →
      ∀ u ∈ r.matches', ∃ M, Walk graph stop inner.socket M (u ++ (us.flatten ++ v))
  | [], _, u, hu => h u e.plug _ v hu (by rw [hback]; simp) hlast
  | u' :: us, hus, u, hu => by
    obtain ⟨hu', hus⟩ := List.forall_mem_cons.mp hus
    obtain ⟨M', hrest⟩ := writes_iterations hback h hlast us hus u' hu'
    obtain ⟨M, hwalk⟩ := h u inner.socket _ _ hu (by rw [hback]; simp) hrest
    exact ⟨M, by simpa using hwalk⟩

theorem writes_repeated (hjoins : Joins graph lo e) (hlo : stop < lo)
    (hrepeats : Repeats graph e inner mult) (h : Writes graph stop r inner) :
    Writes graph stop (mult.expr r) e := by
  have hsocket : stop < e.socket := lt_of_lt_of_le hlo hjoins.le_socket
  intro u m M v hu hm hwalk
  have hlast := hwalk.junction (lt_of_lt_of_le hlo hjoins.le_plug) hjoins.plug hm
  cases mult with
  | zeroOrOne =>
    rcases hu with rfl | hu
    · exact ⟨_, hlast.junction hsocket hjoins.socket (by rw [hrepeats.1]; simp)⟩
    · obtain ⟨N, hwalk⟩ := h u e.plug _ v hu (by rw [hrepeats.2]; simp) hlast
      exact ⟨_, hwalk.junction hsocket hjoins.socket (by rw [hrepeats.1]; simp)⟩
  | zeroOrMore =>
    obtain ⟨us, rfl, hus⟩ := Language.mem_kstar.mp hu
    clear hu
    induction us with
    | nil => exact ⟨_, hlast.junction hsocket hjoins.socket (by rw [hrepeats.1]; simp)⟩
    | cons u us ih =>
      obtain ⟨hu, hus⟩ := List.forall_mem_cons.mp hus
      obtain ⟨M', hrest⟩ := ih hus
      obtain ⟨N, hwalk⟩ := h u e.socket _ _ hu (by rw [hrepeats.2]; simp) hrest
      rw [← List.append_assoc, ← List.flatten_cons] at hwalk
      exact ⟨_, hwalk.junction hsocket hjoins.socket (by rw [hrepeats.1]; simp)⟩
  | oneOrMore =>
    obtain ⟨u, hfirst, behind, hbehind, rfl⟩ := Language.mem_mul.mp hu
    obtain ⟨us, rfl, hus⟩ := Language.mem_kstar.mp hbehind
    obtain ⟨N, hwalk⟩ := writes_iterations hrepeats.2 h hlast us hus u hfirst
    rw [← List.append_assoc] at hwalk
    exact ⟨_, hwalk.junction hsocket hjoins.socket (by rw [hrepeats.1]; simp)⟩

end

end Graph

namespace Piece

open GrammarGraph.Graph

variable {graph : Graph} {stop lo : NodeId}

mutual

/-- A walk into a piece reads a word of its expression, however it goes on. -/
theorem reads : ∀ (p : Piece) {e : Element}, graph.Lies lo p e → stop < lo →
    graph.Reads stop p.expr e
  | .slot type ident hook, e, h, hlo => by
    rw [Lies] at h
    obtain ⟨hle, hplug, hk⟩ := h
    intro N w hwalk
    obtain ⟨m, M, v, hm, hrest, rfl, rfl⟩ := hwalk.cases_hop (Nat.ne_of_lt (lt_of_lt_of_le hlo hle))
    rw [onward, hk] at hm
    simp only [targets, hk, NodeKind.targets] at hm
    refine ⟨_, v, m, M, rfl, ?_, by rwa [hplug], hrest, Nat.lt_succ_self M⟩
    rw [hk, expr]
    exact Set.mem_singleton _
  | .call rule ident, e, h, hlo => by
    rw [Lies] at h
    obtain ⟨hle, hle', hk, hk'⟩ := h
    intro N w hwalk
    obtain ⟨m, M, v, hm, hrest, rfl, rfl⟩ := hwalk.cases_hop (Nat.ne_of_lt (lt_of_lt_of_le hlo hle))
    simp only [onward, hk, List.mem_singleton] at hm
    subst hm
    obtain ⟨m, M', v', hm, hlast, rfl, rfl⟩ :=
      hrest.cases_hop (Nat.ne_of_lt (lt_of_lt_of_le hlo hle'))
    simp only [onward, hk', targets, NodeKind.targets] at hm
    refine ⟨_, v', m, M', by rw [hk']; rfl, ?_, hm, hlast, by omega⟩
    rw [hk, expr]
    exact Set.mem_singleton _
  | .sequence ps, e, h, hlo => by
    rw [Lies] at h
    obtain ⟨hjoins, first, hfirst, hturn⟩ := h
    intro N w hwalk
    obtain ⟨m, M, hm, hrest, rfl⟩ :=
      hwalk.cases_junction (lt_of_lt_of_le hlo hjoins.le_socket) hjoins.socket
    rw [hfirst, List.mem_singleton] at hm
    subst hm
    obtain ⟨u, v, M', rfl, hu, hrest, hle⟩ := readsInTurn ps hturn hlo M w hrest
    obtain ⟨m, M'', hm, hlast, rfl⟩ :=
      hrest.cases_junction (lt_of_lt_of_le hlo hjoins.le_plug) hjoins.plug
    exact ⟨u, v, m, M'', rfl, by rwa [expr], hm, hlast, by omega⟩
  | .fork ps, e, h, hlo => by
    rw [Lies] at h
    obtain ⟨hjoins, haside⟩ := h
    intro N w hwalk
    obtain ⟨m, M, hm, hrest, rfl⟩ :=
      hwalk.cases_junction (lt_of_lt_of_le hlo hjoins.le_socket) hjoins.socket
    obtain ⟨u, v, M', rfl, hu, hrest, hlt⟩ := readsAside ps haside hlo m hm M w hrest
    obtain ⟨m, M'', hm, hlast, rfl⟩ :=
      hrest.cases_junction (lt_of_lt_of_le hlo hjoins.le_plug) hjoins.plug
    exact ⟨u, v, m, M'', rfl, by rwa [expr], hm, hlast, by omega⟩
  | .repeated m p, e, h, hlo => by
    rw [Lies] at h
    obtain ⟨hjoins, inner, hinner, hrepeats⟩ := h
    rw [expr]
    exact reads_repeated hjoins hlo hrepeats (reads p hinner hlo)
  | .ref _, _, h, _ | .junction, _, h, _ | .switch _, _, h, _ | .guard _, _, h, _ => absurd h id

theorem readsInTurn : ∀ (ps : List Piece) {first last : NodeId},
    graph.LieInTurn lo ps first last → stop < lo → ∀ N w, graph.Walk stop first N w →
    ∃ u v M, w = u ++ v ∧ u ∈ (exprInTurn ps).matches' ∧ graph.Walk stop last M v ∧ M ≤ N
  | [], first, last, h, _, N, w, hwalk => by
    rw [LieInTurn] at h
    exact ⟨[], w, N, rfl, by rw [exprInTurn]; exact Language.nil_mem_one, h ▸ hwalk, le_refl N⟩
  | p :: ps, first, last, h, hlo, N, w, hwalk => by
    rw [LieInTurn] at h
    obtain ⟨e, next, rfl, hlies, hplug, hturn⟩ := h
    obtain ⟨u, v, m, M, rfl, hu, hm, hrest, hlt⟩ := reads p hlies hlo N w hwalk
    rw [hplug, List.mem_singleton] at hm
    subst hm
    obtain ⟨u', v', M', rfl, hu', hrest, hle⟩ := readsInTurn ps hturn hlo M v hrest
    refine ⟨u ++ u', v', M', (List.append_assoc _ _ _).symm, ?_, hrest, by omega⟩
    rw [exprInTurn]
    exact Language.append_mem_mul hu hu'

theorem readsAside : ∀ (ps : List Piece) {sockets : List NodeId} {last : NodeId},
    graph.LieAside lo ps sockets last → stop < lo →
    ∀ m ∈ sockets, ∀ N w, graph.Walk stop m N w →
    ∃ u v M, w = u ++ v ∧ u ∈ (exprAside ps).matches' ∧ graph.Walk stop last M v ∧ M < N
  | [], sockets, last, h, _, m, hm, N, w, hwalk => by
    rw [LieAside] at h
    rw [h] at hm
    exact absurd hm List.not_mem_nil
  | p :: ps, sockets, last, h, hlo, m, hm, N, w, hwalk => by
    rw [LieAside] at h
    obtain ⟨e, rest, rfl, hlies, hplug, haside⟩ := h
    rw [exprAside]
    rcases List.mem_cons.mp hm with rfl | hm
    · obtain ⟨u, v, m, M, rfl, hu, hm, hrest, hlt⟩ := reads p hlies hlo N w hwalk
      rw [hplug, List.mem_singleton] at hm
      subst hm
      exact ⟨u, v, M, rfl, .inl hu, hrest, hlt⟩
    · obtain ⟨u, v, M, rfl, hu, hrest, hlt⟩ := readsAside ps haside hlo m hm N w hwalk
      exact ⟨u, v, M, rfl, .inr hu, hrest, hlt⟩

end

mutual

/-- Any word of the expression can be passed on a walk through the piece. -/
theorem writes : ∀ (p : Piece) {e : Element}, graph.Lies lo p e → stop < lo →
    graph.Writes stop p.expr e
  | .slot type ident hook, e, h, hlo => by
    rw [Lies] at h
    obtain ⟨hle, hplug, hk⟩ := h
    intro u m M v hu hm hwalk
    rw [expr] at hu
    obtain rfl := Set.mem_singleton_iff.mp hu
    have hhop := hwalk.hop (n := e.socket) (Nat.ne_of_lt (lt_of_lt_of_le hlo hle)) (by
      rw [onward, hk]; simpa only [targets, hk, NodeKind.targets, hplug] using hm)
    rw [hk] at hhop
    exact ⟨_, hhop⟩
  | .call rule ident, e, h, hlo => by
    rw [Lies] at h
    obtain ⟨hle, hle', hk, hk'⟩ := h
    intro u m M v hu hm hwalk
    rw [expr] at hu
    obtain rfl := Set.mem_singleton_iff.mp hu
    have hhop := hwalk.hop (n := e.plug) (Nat.ne_of_lt (lt_of_lt_of_le hlo hle')) (by
      rw [onward, hk']; simpa only [targets, hk', NodeKind.targets] using hm)
    have hhop' := hhop.hop (n := e.socket) (Nat.ne_of_lt (lt_of_lt_of_le hlo hle)) (by
      simp only [onward, hk, List.mem_singleton])
    rw [hk, hk'] at hhop'
    exact ⟨_, hhop'⟩
  | .sequence ps, e, h, hlo => by
    rw [Lies] at h
    obtain ⟨hjoins, first, hfirst, hturn⟩ := h
    intro u m M v hu hm hwalk
    rw [expr] at hu
    obtain ⟨N, hrest⟩ := writesInTurn ps hturn hlo u _ v hu
      (hwalk.junction (lt_of_lt_of_le hlo hjoins.le_plug) hjoins.plug hm)
    exact ⟨_, hrest.junction (lt_of_lt_of_le hlo hjoins.le_socket) hjoins.socket
      (by rw [hfirst]; exact List.mem_singleton_self _)⟩
  | .fork ps, e, h, hlo => by
    rw [Lies] at h
    obtain ⟨hjoins, haside⟩ := h
    intro u m M v hu hm hwalk
    rw [expr] at hu
    obtain ⟨n, N, hn, hrest⟩ := writesAside ps haside hlo u _ v hu
      (hwalk.junction (lt_of_lt_of_le hlo hjoins.le_plug) hjoins.plug hm)
    exact ⟨_, hrest.junction (lt_of_lt_of_le hlo hjoins.le_socket) hjoins.socket hn⟩
  | .repeated m p, e, h, hlo => by
    rw [Lies] at h
    obtain ⟨hjoins, inner, hinner, hrepeats⟩ := h
    rw [expr]
    exact writes_repeated hjoins hlo hrepeats (writes p hinner hlo)
  | .ref _, _, h, _ | .junction, _, h, _ | .switch _, _, h, _ | .guard _, _, h, _ => absurd h id

theorem writesInTurn : ∀ (ps : List Piece) {first last : NodeId},
    graph.LieInTurn lo ps first last → stop < lo →
    ∀ u M v, u ∈ (exprInTurn ps).matches' → graph.Walk stop last M v →
    ∃ N, graph.Walk stop first N (u ++ v)
  | [], first, last, h, _, u, M, v, hu, hwalk => by
    rw [LieInTurn] at h
    rw [exprInTurn] at hu
    obtain rfl := (Language.mem_one _).mp hu
    exact ⟨M, h ▸ hwalk⟩
  | p :: ps, first, last, h, hlo, u, M, v, hu, hwalk => by
    rw [LieInTurn] at h
    obtain ⟨e, next, rfl, hlies, hplug, hturn⟩ := h
    rw [exprInTurn] at hu
    obtain ⟨u, hfst, u', hsnd, rfl⟩ := Language.mem_mul.mp hu
    obtain ⟨N, hrest⟩ := writesInTurn ps hturn hlo u' M v hsnd hwalk
    obtain ⟨N', hwhole⟩ :=
      writes p hlies hlo u next N _ hfst (by rw [hplug]; exact List.mem_singleton_self _) hrest
    exact ⟨N', by rwa [List.append_assoc]⟩

theorem writesAside : ∀ (ps : List Piece) {sockets : List NodeId} {last : NodeId},
    graph.LieAside lo ps sockets last → stop < lo →
    ∀ u M v, u ∈ (exprAside ps).matches' → graph.Walk stop last M v →
    ∃ n N, n ∈ sockets ∧ graph.Walk stop n N (u ++ v)
  | [], sockets, last, h, _, u, M, v, hu, hwalk => by
    rw [exprAside] at hu
    exact absurd hu (Language.notMem_zero _)
  | p :: ps, sockets, last, h, hlo, u, M, v, hu, hwalk => by
    rw [LieAside] at h
    obtain ⟨e, rest, rfl, hlies, hplug, haside⟩ := h
    rw [exprAside] at hu
    rcases hu with hu | hu
    · obtain ⟨N, hwhole⟩ :=
        writes p hlies hlo u last M v hu (by rw [hplug]; exact List.mem_singleton_self _) hwalk
      exact ⟨_, N, List.mem_cons_self, hwhole⟩
    · obtain ⟨n, N, hn, hwhole⟩ := writesAside ps haside hlo u M v hu hwalk
      exact ⟨n, N, List.mem_cons_of_mem _ hn, hwhole⟩

end

end Piece

namespace Graph

variable {graph : Graph} {lo stop : NodeId} {p : Piece} {w : List Label}

/-- The walks through a body pass the words of its expression. -/
theorem BodyOf.exists_walk_iff (h : graph.BodyOf p lo stop) (hlo : stop < lo) :
    (∃ N, graph.Walk stop lo N w) ↔ w ∈ p.expr.matches' := by
  obtain ⟨e, hentry, hlies, hplug⟩ := h.lies
  constructor
  · rintro ⟨N, hwalk⟩
    obtain ⟨m, M, hm, hpiece, rfl⟩ := hwalk.cases_junction hlo h.entry
    rw [hentry, List.mem_singleton] at hm
    subst hm
    obtain ⟨u, v, m, M, rfl, hu, hm, hexit, -⟩ := p.reads hlies hlo _ _ hpiece
    rw [hplug, List.mem_singleton] at hm
    subst hm
    obtain ⟨m, M, hm, hstop, rfl⟩ := hexit.cases_junction (Nat.lt_succ_of_lt hlo) h.exit
    rw [h.leaves, List.mem_singleton] at hm
    subst hm
    obtain rfl := hstop.eq_of_done
    rwa [List.append_nil]
  · intro hw
    have hexit := Walk.done.junction (Nat.lt_succ_of_lt hlo) h.exit
      (by rw [h.leaves]; exact List.mem_singleton_self _)
    obtain ⟨N, hpiece⟩ :=
      p.writes hlies hlo w _ _ _ hw (by rw [hplug]; exact List.mem_singleton_self _) hexit
    rw [List.append_nil] at hpiece
    exact ⟨_, hpiece.junction hlo h.entry (by rw [hentry]; exact List.mem_singleton_self _)⟩

end Graph

end GrammarGraph
