import GrammarGraph.Proofs.Routes

/-!
# What the bodies of the grammar of definitions let through

The ways from a node of a body to its exit, cut where one of some marks is passed, are found by
going along the links (`Meta.Layout.ways`).  Whatever is passed in the body is such a way and what
comes behind it (`Meta.Layout.Passes.exists_way`), and where a way may come back to where it starts,
it is passed again and again (`Meta.Layout.Passes.exists_rounds`).  So the table of a body tells
what an instance of its rule derives.
-/

namespace GrammarGraph.Meta

namespace Spot

/-- What is passed at a node. -/
def labels : Spot → List Label
  | slot type ident => [.token (typeAt type) ident]
  | start rule ident _ => [.rule rule ident]
  | junction | close .. => []

/-- Where the way goes on from a node: from the start of a reference to its end. -/
def onward (links : List Nat) : Spot → List Nat
  | start _ _ stop => [stop]
  | _ => links

end Spot

namespace Layout

/-- The ways from a node, to the exit or to a mark: what is passed behind what was passed before,
and where they end.  Ways of more steps than the given number are cut, too. -/
def ways (layout : Layout) (marks : List Nat) : Nat → List Label → Nat → List (List Label × Nat)
  | 0, before, i => [(before, i)]
  | fuel + 1, before, i =>
    match layout[i]? with
    | none => []
    | some (spot, links) =>
      if i = 1 then [(before, 1)]
      else (spot.onward links).flatMap fun j =>
        if marks.contains j then [(before ++ spot.labels, j)]
        else ways layout marks fuel (before ++ spot.labels) j

/-- What is passed in so many steps from a node of a body to behind its exit, wherever the body
is. -/
def Passes (layout : Layout) (i N : Nat) (w : List Label) : Prop :=
  ∃ (graph : Graph) (base : Nat) (stop : NodeId),
    graph.Holds base layout.graph stop ∧ stop < base ∧ graph.Walk stop (base + i) N w

namespace Passes

variable {layout : Layout} {i N : Nat} {w : List Label} {spot : Spot} {links : List Nat}

/-- Behind the exit nothing is passed. -/
theorem exit (hlayout : layout.Sound) (h : layout.Passes 1 N w) : w = [] := by
  obtain ⟨graph, base, stop, hholds, hlt, hwalk⟩ := h
  have hk := kind_of_holds hholds hlayout.exit
  obtain ⟨m, M, hm, hrest, -⟩ := hwalk.cases_junction (Nat.lt_succ_of_lt hlt) hk
  rw [wired_of_holds hholds hlayout.exit] at hm
  obtain rfl := List.mem_singleton.mp hm
  exact hrest.eq_of_done

/-- From another node the way goes on in the body. -/
theorem step (h : layout.Passes i N w) (hi : layout[i]? = some (spot, links)) (hexit : i ≠ 1) :
    ∃ j ∈ spot.onward links, ∃ v M, w = spot.labels ++ v ∧ layout.Passes j M v ∧ M < N := by
  obtain ⟨graph, base, stop, hholds, hlt, hwalk⟩ := h
  obtain ⟨m, M, v, hm, hrest, rfl, rfl⟩ := hwalk.cases_hop (Nat.ne_of_lt (Nat.lt_add_right i hlt))
  have hk := kind_of_holds hholds hi
  have hwired := wired_of_holds hholds hi
  rw [if_neg hexit, List.append_nil] at hwired
  have honward : ∃ j ∈ spot.onward links, m = base + j := by
    cases spot with
    | start rule ident stop =>
      simp only [Graph.onward, hk] at hm
      exact ⟨stop, List.mem_singleton_self stop, List.mem_singleton.mp hm⟩
    | junction | slot | close =>
      simp only [Graph.onward, hk, Spot.kind, NodeKind.moved, Graph.targets, NodeKind.targets,
        hwired, List.mem_map] at hm
      obtain ⟨j, hj, rfl⟩ := hm
      exact ⟨j, hj, rfl⟩
  obtain ⟨j, hj, rfl⟩ := honward
  refine ⟨j, hj, v, M, ?_, ⟨graph, base, stop, hholds, hlt, hrest⟩, Nat.lt_succ_self M⟩
  rw [hk]
  cases spot <;> rfl

/-- What is passed is one of the ways and what comes behind it. -/
theorem exists_way (h : layout.Passes i N w) (hlayout : layout.Sound) (hi : i < layout.length)
    (marks : List Nat) (fuel : Nat) (before : List Label) :
    ∃ way ∈ ways layout marks fuel before i, ∃ v M, before ++ w = way.1 ++ v ∧
      layout.Passes way.2 M v ∧ way.2 < layout.length ∧ M ≤ N ∧ (0 < fuel → i ≠ 1 → M < N) := by
  induction fuel generalizing i N w before with
  | zero =>
    exact ⟨_, List.mem_singleton_self _, w, N, rfl, h, hi, le_refl N,
      fun hfuel => absurd hfuel (Nat.lt_irrefl 0)⟩
  | succ fuel ih =>
    obtain ⟨spot, links, hnode⟩ := exists_of_lt_length hi
    simp only [ways, hnode]
    by_cases hexit : i = 1
    · simp only [if_pos hexit, List.mem_singleton, exists_eq_left]
      exact ⟨w, N, rfl, hexit ▸ h, hexit ▸ hi, le_refl N, fun _ hne => absurd hexit hne⟩
    · simp only [if_neg hexit, List.mem_flatMap]
      obtain ⟨j, hj, v, M, rfl, hrest, hM⟩ := h.step hnode hexit
      have hlt : j < layout.length := by
        cases spot with
        | start => exact List.mem_singleton.mp hj ▸ hlayout.stop_lt hnode
        | junction | slot | close => exact hlayout.link_lt hnode hj
      rw [← List.append_assoc]
      by_cases hmark : marks.contains j = true
      · refine ⟨(before ++ spot.labels, j), ⟨j, hj, ?_⟩, v, M, rfl, hrest, hlt, le_of_lt hM,
          fun _ _ => hM⟩
        rw [if_pos hmark]
        exact List.mem_singleton_self _
      · obtain ⟨way, hway, v', M', heq, hpasses, hlt', hle, -⟩ :=
          ih hrest hlt (before ++ spot.labels)
        refine ⟨way, ⟨j, hj, ?_⟩, v', M', heq, hpasses, hlt', le_trans hle (le_of_lt hM),
          fun _ _ => lt_of_le_of_lt hle hM⟩
        rwa [if_neg hmark]

/-- Where all ways end on the exit, one of them is all that is passed. -/
theorem mem_of_ways (h : layout.Passes i N w) (hlayout : layout.Sound) (hi : i < layout.length)
    (fuel : Nat) {words : List (List Label)} (hways : ways layout [] fuel [] i = words.map (·, 1)) :
    w ∈ words := by
  obtain ⟨⟨u, j⟩, hway, v, M, rfl, hrest, -⟩ := h.exists_way hlayout hi [] fuel []
  rw [hways] at hway
  obtain ⟨u, hu, heq⟩ := List.mem_map.mp hway
  obtain ⟨rfl, rfl⟩ := Prod.mk.inj heq
  obtain rfl := hrest.exit hlayout
  rwa [List.append_nil]

/-- Where all ways end on the same mark, one of them is passed in front of it. -/
theorem exists_front (h : layout.Passes i N w) (hlayout : layout.Sound) (hi : i < layout.length)
    (fuel : Nat) (mark : Nat) (words : List (List Label))
    (hways : ways layout [mark] fuel [] i = words.map (·, mark)) :
    ∃ u ∈ words, ∃ v M, w = u ++ v ∧ layout.Passes mark M v := by
  obtain ⟨⟨u, j⟩, hway, v, M, rfl, hrest, -⟩ := h.exists_way hlayout hi [mark] fuel []
  rw [hways] at hway
  obtain ⟨u, hu, heq⟩ := List.mem_map.mp hway
  obtain ⟨rfl, rfl⟩ := Prod.mk.inj heq
  exact ⟨u, hu, v, M, rfl, hrest⟩

/-- Where ways come back to where they start or end on the exit, some of the first kind are passed
and then one of the other kind. -/
theorem exists_rounds (h : layout.Passes i N w) (hlayout : layout.Sound) (hi : i < layout.length)
    (hexit : i ≠ 1) (fuel : Nat) (rounds lasts : List (List Label))
    (hways : (ways layout [i] (fuel + 1) [] i).Perm (rounds.map (·, i) ++ lasts.map (·, 1))) :
    ∃ (us : List (List Label)) (u : List Label), us ⊆ rounds ∧ u ∈ lasts ∧ w = us.flatten ++ u := by
  induction N using Nat.strong_induction_on generalizing w with
  | _ N ih =>
    obtain ⟨⟨u, j⟩, hway, v, M, rfl, hrest, -, -, hlt⟩ := h.exists_way hlayout hi [i] (fuel + 1) []
    rw [hways.mem_iff, List.mem_append, List.mem_map, List.mem_map] at hway
    rcases hway with ⟨u, hu, heq⟩ | ⟨u, hu, heq⟩
    · obtain ⟨rfl, rfl⟩ := Prod.mk.inj heq
      obtain ⟨us, last, hus, hlast, rfl⟩ := ih M (hlt (Nat.succ_pos fuel) hexit) hrest
      refine ⟨u :: us, last, List.cons_subset.mpr ⟨hu, hus⟩, hlast, ?_⟩
      rw [List.flatten_cons, List.append_assoc]
    · obtain ⟨rfl, rfl⟩ := Prod.mk.inj heq
      obtain rfl := hrest.exit hlayout
      exact ⟨[], u, List.nil_subset rounds, hu, List.append_nil u⟩

end Passes

end Layout

/-! ## What instances derive -/

/-- The derivations stand for the labels, one by one, and have the property. -/
structure Derives (P : Derivation → Prop) (w : List Label) (ds : List Derivation) : Prop where
  labels : ds.map (·.label) = w
  all : ∀ d ∈ ds, P d

namespace Derives

variable {P : Derivation → Prop} {w u : List Label} {ds : List Derivation} {type : TokenType}
  {ident : Option String} {rule : RuleId}

theorem nil (h : Derives P [] ds) : ds = [] := List.map_eq_nil_iff.mp h.labels

theorem token (h : Derives P (.token type ident :: w) ds) :
    ∃ token ds', ds = .leaf type ident token :: ds' ∧ P (.leaf type ident token) ∧
      Derives P w ds' := by
  obtain ⟨d, ds', rfl, hd, hrest⟩ := List.map_eq_cons_iff.mp h.labels
  obtain ⟨hP, hall⟩ := List.forall_mem_cons.mp h.all
  cases d with
  | leaf type' ident' token =>
    obtain ⟨rfl, rfl⟩ := Label.token.inj hd
    exact ⟨token, ds', rfl, hP, hrest, hall⟩
  | node => exact absurd hd nofun

theorem call (h : Derives P (.rule rule ident :: w) ds) :
    ∃ cs ds', ds = .node rule ident cs :: ds' ∧ P (.node rule ident cs) ∧ Derives P w ds' := by
  obtain ⟨d, ds', rfl, hd, hrest⟩ := List.map_eq_cons_iff.mp h.labels
  obtain ⟨hP, hall⟩ := List.forall_mem_cons.mp h.all
  cases d with
  | leaf => exact absurd hd nofun
  | node rule' ident' cs =>
    obtain ⟨rfl, rfl⟩ := Label.rule.inj hd
    exact ⟨cs, ds', rfl, hP, hrest, hall⟩

theorem append (h : Derives P (u ++ w) ds) : ∃ ds₁ ds₂, ds = ds₁ ++ ds₂ ∧ Derives P u ds₁ ∧
    Derives P w ds₂ := by
  obtain ⟨ds₁, ds₂, rfl, hu, hw⟩ := List.map_eq_append_iff.mp h.labels
  obtain ⟨hall₁, hall₂⟩ := List.forall_mem_append.mp h.all
  exact ⟨ds₁, ds₂, rfl, ⟨hu, hall₁⟩, hw, hall₂⟩

end Derives

/-- To show a property of all that is found in an arena, look at the tokens that slots
take, and at an instance of a rule whose body lets through what the derivations stand for
that have the property. -/
theorem allows_induction {P : Derivation → Prop} {graph : Graph}
    (hleaf : ∀ type ident token, Takes type ident token → P (.leaf type ident token))
    (hnode : ∀ rule ident ds, ∀ layout ∈ layouts rule, ∀ N w, layout.Sound → layout.Passes 0 N w →
      Derives P w ds → P (.node rule ident ds))
    {d : Derivation} (h : graph.Allows grammar Takes d) : P d := by
  induction h with
  | leaf htakes => exact hleaf _ _ _ htakes
  | @node rule ident ds expand ctx base stop N hexpand hle hlt hwalk hds ih =>
    obtain ⟨layout, hlayout, htemplate⟩ := layout_of_expand? hexpand ctx
    have hholds := (Graph.holds_addBody hlt (expand ctx)).of_le hle
    rw [htemplate] at hholds
    exact hnode rule ident ds layout hlayout N _ (sound_layouts hlayout)
      ⟨_, _, _, hholds, hlt, hwalk⟩ ⟨rfl, ih⟩

end GrammarGraph.Meta
