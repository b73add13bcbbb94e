import GrammarGraph.Definition.Building
import GrammarGraph.Proofs.Reach

/-!
# Rule ends that are linked to nothing

A body that builds a reference without linking it leaves a rule end behind from which no link leads
(`Graph.Loose`).  Every combinator links the pieces that it is made of, so a body that is a single
piece between entry and exit leaves none behind (`Grammar.links_of_ofPiece`).  The grammars of
definitions have only such bodies.
-/

namespace GrammarGraph

namespace Graph

variable {g : Graph} {id : NodeId}

/-- The end of a rule instance that is linked to nothing. -/
def Loose (g : Graph) (id : NodeId) : Prop := (g.kind id).isRuleEnd = true ∧ g.wired id = []

theorem mem_wired_connect_self {s t : NodeId} (h : s < g.size) : t ∈ (g.connect s t).wired s := by
  have hs : g.nodes[s]? = some g.nodes[s] := Array.getElem?_eq_getElem h
  simp only [wired, connect, Array.getElem?_modify, if_pos, hs, Option.map_some]
  split
  · next hmem => simpa using hmem
  · exact List.mem_append_right _ List.mem_cons_self

namespace Loose

theorem lt_size (h : g.Loose id) : id < g.size := lt_size_of_isRuleEnd h.1

theorem of_add {k : NodeKind} (h : (g.add k).2.Loose id) (hk : k.isRuleEnd = false) :
    g.Loose id := by
  obtain ⟨hend, hwired⟩ := h
  rw [kind_add] at hend
  rw [wired_add] at hwired
  split at hend
  · exact absurd (hk.symm.trans hend) nofun
  · exact ⟨hend, hwired⟩

theorem of_connect {s t : NodeId} (h : (g.connect s t).Loose id) : g.Loose id ∧ id ≠ s := by
  have hlt := h.lt_size
  obtain ⟨hend, hwired⟩ := h
  rw [kind_connect] at hend
  rw [size_connect] at hlt
  refine ⟨⟨hend, ?_⟩, ?_⟩
  · rcases wired_connect g s t id with hsame | ⟨-, -, hlinks⟩
    · exact hsame.symm.trans hwired
    · exact absurd (hlinks.symm.trans hwired)
        (List.append_ne_nil_of_right_ne_nil _ (List.cons_ne_nil _ _))
  · rintro rfl
    have hmem : t ∈ (g.connect id t).wired id := mem_wired_connect_self hlt
    rw [hwired] at hmem
    exact absurd hmem List.not_mem_nil

/-- Links drawn one after the other, one of them from the plug of each part. -/
theorem of_foldl {α : Type} {f : Graph → α → Graph} (plug : α → NodeId)
    (hf : ∀ g x, (f g x).Loose id → g.Loose id ∧ id ≠ plug x) : ∀ (xs : List α) {g : Graph},
    (xs.foldl f g).Loose id → g.Loose id ∧ ∀ x ∈ xs, id ≠ plug x
  | [], _, h => ⟨h, fun _ hx => absurd hx List.not_mem_nil⟩
  | x :: xs, g, h => by
    obtain ⟨hrest, hxs⟩ := of_foldl plug hf xs h
    obtain ⟨hg, hx⟩ := hf g x hrest
    exact ⟨hg, List.forall_mem_cons.mpr ⟨hx, hxs⟩⟩

/-- A chain links all elements but the last. -/
theorem of_chain : ∀ (es : List Element) {g : Graph}, (g.chain es).Loose id →
    g.Loose id ∧ ∀ e ∈ es.dropLast, id ≠ e.plug
  | [], _, h | [_], _, h => ⟨h, fun _ he => absurd he List.not_mem_nil⟩
  | a :: b :: es, g, h => by
    obtain ⟨hrest, hes⟩ := of_chain (b :: es) h
    obtain ⟨hg, ha⟩ := hrest.of_connect
    rw [List.dropLast_cons_cons]
    exact ⟨hg, List.forall_mem_cons.mpr ⟨ha, hes⟩⟩

theorem of_addEnds (h : g.addEnds.2.Loose id) : g.Loose id := (h.of_add rfl).of_add rfl

theorem of_addSequence {es : List Element} (h : (g.addSequence es).2.Loose id) :
    g.Loose id ∧ ∀ e ∈ es, id ≠ e.plug := by
  obtain ⟨hends, hes⟩ := of_chain _ h
  rw [List.dropLast_concat] at hes
  exact ⟨hends.of_addEnds, fun e he => hes e (List.mem_cons_of_mem _ he)⟩

theorem of_addFork {es : List Element} (h : (g.addFork es).2.Loose id) :
    g.Loose id ∧ ∀ e ∈ es, id ≠ e.plug := by
  obtain ⟨hends, hes⟩ := of_foldl Element.plug
    (fun _ _ h => ⟨h.of_connect.1.of_connect.1, h.of_connect.2⟩) es h
  exact ⟨hends.of_addEnds, hes⟩

theorem of_addRepeated {m : Multiplicity} {e : Element} (h : (g.addRepeated m e).2.Loose id) :
    g.Loose id ∧ id ≠ e.plug := by
  -- The plug is linked first or last, depending on where the way past the piece comes.
  cases m with
  | zeroOrOne | zeroOrMore =>
    obtain ⟨h, hplug⟩ := h.of_connect.1.of_connect
    exact ⟨h.of_connect.1.of_addEnds, hplug⟩
  | oneOrMore =>
    obtain ⟨h, hplug⟩ := h.of_connect
    exact ⟨h.of_connect.1.of_connect.1.of_addEnds, hplug⟩

theorem of_addSwitch {bs : List (String × Element)} (h : (g.addSwitch bs).2.Loose id) :
    g.Loose id ∧ ∀ b ∈ bs, id ≠ b.2.plug := by
  obtain ⟨hstop, hbs⟩ := of_foldl (fun b => b.2.plug) (fun _ _ h => h.of_connect) bs (h.of_add rfl)
  exact ⟨hstop.of_add rfl, hbs⟩

theorem of_addGuard {holds : Context → Bool} (h : (g.addGuard holds).2.Loose id) : g.Loose id :=
  (h.of_add rfl).of_add rfl

/-- The end of a reference is its plug. -/
theorem of_addCall {rule : RuleId} {ident : Option String} (h : (g.addCall rule ident).2.Loose id) :
    g.Loose id ∨ id = (g.addCall rule ident).1.plug := by
  have hstop : (g.add (.ruleEnd rule ident)).2.Loose id := h.of_add rfl
  obtain ⟨hend, hwired⟩ := hstop
  rw [kind_add] at hend
  rw [wired_add] at hwired
  split at hend
  · next hid => exact .inr hid
  · exact .inl ⟨hend, hwired⟩

end Loose

end Graph

namespace Piece

open GrammarGraph.Graph

variable {parts : Parts} {id : NodeId}

mutual

/-- Only the plug of a piece is left to be linked. -/
theorem loose_build : ∀ (p : Piece) {g : Graph}, (p.build parts g).2.Loose id →
    g.Loose id ∨ id = (p.build parts g).1.plug
  | .ref _, _, h => .inl h
  | .junction, _, h => .inl (h.of_add rfl)
  | .slot .., _, h => .inl (h.of_add rfl)
  | .call _ _, _, h => h.of_addCall
  | .sequence ps, _, h => .inl (loose_of_buildAll ps h.of_addSequence)
  | .fork ps, _, h => .inl (loose_of_buildAll ps h.of_addFork)
  | .repeated _ p, _, h =>
    .inl ((loose_build p h.of_addRepeated.1).resolve_right h.of_addRepeated.2)
  | .switch bs, _, h => .inl (loose_of_buildBranches bs h.of_addSwitch)
  | .guard _, _, h => .inl h.of_addGuard

/-- Once the plugs of all pieces are linked, nothing is left. -/
theorem loose_of_buildAll : ∀ (ps : List Piece) {g : Graph}, (buildAll parts ps g).2.Loose id ∧
    (∀ e ∈ (buildAll parts ps g).1, id ≠ e.plug) → g.Loose id
  | [], _, h => h.1
  | p :: ps, _, h => by
    obtain ⟨he, hes⟩ := List.forall_mem_cons.mp h.2
    exact (loose_build p (loose_of_buildAll ps ⟨h.1, hes⟩)).resolve_right he

theorem loose_of_buildBranches :
    ∀ (bs : List (String × Piece)) {g : Graph}, (buildBranches parts bs g).2.Loose id ∧
    (∀ b ∈ (buildBranches parts bs g).1, id ≠ b.2.plug) → g.Loose id
  | [], _, h => h.1
  | b :: bs, _, h => by
    obtain ⟨he, hes⟩ := List.forall_mem_cons.mp h.2
    exact (loose_buildBranch b (loose_of_buildBranches bs ⟨h.1, hes⟩)).resolve_right he

theorem loose_buildBranch : ∀ (b : String × Piece) {g : Graph}, (buildBranch parts b g).2.Loose id →
    g.Loose id ∨ id = (buildBranch parts b g).1.2.plug
  | (_, p), _, h => loose_build p h

end

end Piece

namespace Grammar

variable {g : Grammar}

/-- Wherever a rule's body is wired, it links the ends of its references. -/
def Links (g : Grammar) : Prop :=
  ∀ rule expand, g.expand? rule = some expand → ∀ (ctx : Context) (base : Graph) (stop id : NodeId),
    (base.addBody (expand ctx) stop).2.Loose id → base.Loose id

theorem loose_ofPiece {base : Graph} {p : Piece} {stop id : NodeId}
    (h : (base.addBody (.ofPiece p) stop).2.Loose id) : base.Loose id := by
  obtain ⟨hpiece, hes⟩ := Graph.Loose.of_chain _ h.of_connect.1
  have hends :=
    (p.loose_build hpiece).resolve_right (hes _ (List.mem_cons_of_mem _ List.mem_cons_self))
  exact (hends.of_add rfl).of_add rfl

/-- A body that is a single piece links all that it builds. -/
theorem links_of_ofPiece
    (h : ∀ rule expand, g.expand? rule = some expand → ∀ ctx, ∃ p, expand ctx = .ofPiece p) :
    g.Links := by
  intro rule expand hexpand ctx base stop id hloose
  obtain ⟨p, hp⟩ := h rule expand hexpand ctx
  rw [hp] at hloose
  exact loose_ofPiece hloose

end Grammar

namespace Definition

theorem exists_of_bind_eq_ok {ε α β : Type} {x : Except ε α} {f : α → Except ε β} {b : β}
    (h : x >>= f = .ok b) : ∃ a, x = .ok a ∧ f a = .ok b := by
  cases x with
  | error e => exact absurd h nofun
  | ok a => exact ⟨a, rfl, h⟩

theorem exists_of_mapM_eq_ok {ε α β : Type} {f : α → Except ε β} : ∀ {xs : List α} {ys : List β},
    xs.mapM f = .ok ys → ∀ y ∈ ys, ∃ x, f x = .ok y
  | [], ys, h, y, hy => by
    obtain rfl : [] = ys := Except.ok.inj h
    exact absurd hy List.not_mem_nil
  | x :: xs, ys, h, y, hy => by
    rw [List.mapM_cons] at h
    obtain ⟨z, hz, h⟩ := exists_of_bind_eq_ok h
    obtain ⟨zs, hzs, h⟩ := exists_of_bind_eq_ok h
    obtain rfl : z :: zs = ys := Except.ok.inj h
    rcases List.mem_cons.mp hy with rfl | hy
    · exact ⟨x, hz⟩
    · exact exists_of_mapM_eq_ok hzs y hy

/-- The rules of a definition have bodies of one piece each. -/
theorem links_of_grammar {d : Definition} {g : Grammar} {read : PatternReader}
    (h : d.grammar read = .ok g) : g.Links := by
  obtain ⟨⟨types, symbols⟩, -, h⟩ := exists_of_bind_eq_ok h
  obtain ⟨root, -, h⟩ := exists_of_bind_eq_ok h
  obtain ⟨symbols, -, h⟩ := exists_of_bind_eq_ok h
  obtain ⟨rules, hrules, h⟩ := exists_of_bind_eq_ok h
  obtain ⟨types, root, rfl⟩ : ∃ types root, g = ⟨types, rules, root, none⟩ := by
    split at h
    · exact ⟨_, _, (Except.ok.inj h).symm⟩
    · exact absurd h nofun
  apply Grammar.links_of_ofPiece
  intro rule expand hexpand ctx
  obtain ⟨r, hr, hexpand⟩ := Option.bind_eq_some_iff.mp hexpand
  obtain ⟨decl, hdecl⟩ := exists_of_mapM_eq_ok hrules r (List.mem_of_getElem? hr)
  rw [ruleOf] at hdecl
  cases hbranches : symbols.branches decl.branches with
  | error e =>
    rw [hbranches] at hdecl
    exact absurd hdecl nofun
  | ok ps =>
    rw [hbranches] at hdecl
    obtain rfl := Except.ok.inj hdecl
    obtain rfl := Option.some.inj hexpand
    exact ⟨_, rfl⟩

end Definition

theorem Graph.Leaves.loose {a b : Graph} {g : Grammar} {id n : NodeId} {ctx : Context}
    {next : List NodeId} (h : Leaves a g id ctx next b) (hg : g.Links) (hn : b.Loose n) :
    a.Loose n := by
  cases h with
  | enter _ hexpand => exact hg _ _ hexpand _ _ _ _ hn
  | gate | switch | wired => exact hn

end GrammarGraph
