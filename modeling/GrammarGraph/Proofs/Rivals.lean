import GrammarGraph.Proofs.Forecasts
import GrammarGraph.Proofs.Renaming
import GrammarGraph.Proofs.Sentences
import Mathlib.Data.List.TakeWhile

/-!
# Slots that could take the same token

Of two slots that a node is linked to and that lead on to the same nodes, the first takes each token
that it can take: what follows the one follows the other as well, so if the path is found behind the
second one, it would have been found behind the first one before (`Parser.not_hasType_of_rivals`).
-/

namespace GrammarGraph

namespace Graph

variable {a b graph : Graph} {n : NodeId}

/-- A node is linked to a slot and behind it to another one, and both lead on to the same nodes. -/
structure Rivals (graph : Graph) (u : NodeId) (type : TokenType)
    (first second : NodeId) : Prop where
  prefers : graph.Prefers u first second
  kind : ∃ ident, graph.kind first = .slot type ident none
  wired : graph.wired first = graph.wired second

theorem Rivals.of_le {u first second : NodeId} {type : TokenType} (h : a.Rivals u type first second)
    (hle : a ≤ b) (hsecond : second < a.size) : b.Rivals u type first second := by
  obtain ⟨ident, hk⟩ := h.kind
  have hfirst : first < a.size := lt_size_of_isSlot (by rw [hk]; rfl)
  refine ⟨(Grows.of_le hle).prefers h.prefers, ⟨ident, ?_⟩, ?_⟩
  · rw [kind_of_le hle hfirst, hk]
  · rw [wired_of_le hle hfirst, wired_of_le hle hsecond, h.wired]

theorem Regular.of_le (h : b.Regular) (hle : a ≤ b) : a.Regular := by
  intro id
  rcases lt_or_ge id a.size with hid | hid
  · rw [← kind_of_le hle hid]
    exact h id
  · rw [kind_of_size_le hid]
    trivial

theorem targets_of_isSlot (h : (graph.kind n).isSlot = true) : graph.targets n = graph.wired n :=
  NodeKind.targets_of_isPlain (NodeKind.isPlain_of_isSlot h) _

end Graph

namespace Path

variable {graph : Graph} {g : Grammar} {p : Path} {n : NodeId} {e : PathElement}
  {els : List PathElement}

/-- Without a hook a token changes no variable. -/
theorem scopes_push_of_isSlot (hregular : graph.Regular) (hslot : (graph.kind n).isSlot = true)
    (t : Token) : (p.push graph g n (some t)).scopes = p.scopes := by
  have hhook := hregular n
  unfold Path.push
  cases hk : graph.kind n with
  | slot type ident hook =>
    rw [hk] at hhook
    obtain rfl : hook = none := hhook
    rfl
  | junction | gate | switch => rfl
  | ruleStart | ruleEnd =>
    rw [hk] at hslot
    exact absurd hslot nofun

theorem Matched.isSome_of_isSlot (h : Matched graph e) (hslot : (graph.kind e.node).isSlot = true) :
    e.token.isSome = true := by
  unfold Matched at h
  cases hk : graph.kind e.node with
  | slot =>
    simp only [hk] at h
    obtain ⟨t, ht, -⟩ := h
    rw [ht]
    rfl
  | _ =>
    rw [hk] at hslot
    exact absurd hslot nofun

/-- A slot is not passed without a token. -/
theorem not_mem_visited_of_isSlot (hmatched : ∀ e ∈ els, Matched graph e)
    (hslot : (graph.kind n).isSlot = true) : n ∉ visited els := by
  intro hmem
  obtain ⟨e, he, rfl⟩ := List.mem_map.mp hmem
  have hnone := List.mem_takeWhile_imp (p := fun e : PathElement => e.token.isNone) he
  have hsome := (hmatched e (List.takeWhile_subset _ he)).isSome_of_isSlot hslot
  rw [Option.isNone_iff_eq_none.mp hnone] at hsome
  exact absurd hsome nofun

end Path

namespace Search

variable {g : Grammar} {fuel : Nat} {tokens : List Token} {s s' : Search} {n m : NodeId} {t : Token}
  {type : TokenType} {e : PathElement} {els later : List PathElement} {arena b graph : Graph}

/-- A slot takes a token of its type, unless it was passed since the last one. -/
theorem attempt_of_slot {visit : List Token → Search → Option Answer} {ident : Option String}
    {hook : Option Hook} {rest : List Token} (hk : s.graph.kind m = .slot type ident hook)
    (hvisited : m ∉ Path.visited s.path.elements) (htype : t.hasType type.id = true) :
    attempt g (t :: rest) visit s m =
      (visit rest (s.push g m (some t))).map (.orKeep (some s.graph)) := by
  rw [attempt_of_not_revisits]
  · simp only [hk, htype, if_true]
  · refine Path.not_revisits hvisited (fun rule hrule => ?_) 0
    rw [hk] at hrule
    exact absurd hrule nofun

/-- Behind slots that lead on to the same nodes the search stands alike. -/
theorem alike_of_wired_eq (hwell : arena.WellFormed) (hle : arena ≤ b) (hregular : b.Regular)
    (hm : m < arena.size) (hn : n < b.size) (hmslot : (arena.kind m).isSlot = true)
    (hnslot : (b.kind n).isSlot = true) (hwired : arena.wired m = b.wired n) (p : Path)
    (t : Token) :
    Alike (fun n m => n = m ∧ n < arena.size) (Search.push g ⟨arena, p⟩ m (some t))
      (Search.push g ⟨b, p⟩ n (some t)) where
  graph := Graph.alike_of_le (hregular.of_le hle) hwell hle
  elements := by
    refine .taken hm hn hmslot hnslot ?_
    rw [graph_push, graph_push, Graph.targets_of_isSlot hnslot, ← hwired,
      ← Graph.targets_of_isSlot hmslot, List.forall₂_same]
    exact fun k hk => ⟨rfl, hwell.targets_lt m k hk⟩
  scopes := (Path.scopes_push_of_isSlot (hregular.of_le hle) hmslot t).trans
    (Path.scopes_push_of_isSlot hregular hnslot t).symm

/-- Where what is found goes on to a slot, no rival before it can take the token. -/
theorem Finds.not_hasType (h : Finds g fuel tokens s s') (hg : g.Uniform) (hs : s.Grounded g)
    (hle : s.graph ≤ s'.graph) (hregular : s'.graph.Regular)
    (hmatched : ∀ e ∈ s'.path.elements, Path.Matched s'.graph e)
    (hels : s'.path.elements = later ++ ⟨n, some t⟩ :: e :: els)
    (hhere : s.path.elements = e :: els) (hplain : (s'.graph.kind e.node).isPlain = true)
    (hslot : (s'.graph.kind n).isSlot = true) (hrivals : s'.graph.Rivals e.node type m n) :
    t.hasType type.id = false := by
  obtain ⟨left, right, b, rest, hwired, hab, rfl, hfound, hvain⟩ :=
    h.goes_on hs hle hels hhere hplain
  obtain ⟨arena, kept, harena, harena', hattempt⟩ := hvain m (hrivals.prefers.mem hwired)
  obtain ⟨ident, hm⟩ := hrivals.kind
  have hb : b ≤ s'.graph := arena_explore hfound
  have hlt : ∀ k ∈ left ++ n :: right, k < s.graph.size := by
    have hparent : e.node < s.graph.size := hs.lt_size e (hhere ▸ List.mem_cons_self)
    rw [Graph.kind_of_le hle hparent] at hplain
    rw [← hwired, Graph.wired_of_le hle hparent,
      ← NodeKind.targets_of_isPlain hplain (s.graph.wired e.node)]
    exact hs.wellFormed.targets_lt e.node
  have hmlt : m < arena.size :=
    lt_of_lt_of_le (hlt m (List.mem_append_left _ (hrivals.prefers.mem hwired))) harena.1.1
  have hnlt : n < b.size :=
    lt_of_lt_of_le (hlt n (List.mem_append_right _ List.mem_cons_self)) hab.1.1
  have hmkind : arena.kind m = .slot type ident none := by
    rw [← Graph.kind_of_le (le_trans harena'.1 hb) hmlt, hm]
  refine Bool.eq_false_iff.mpr fun htype => ?_
  have hvisited : m ∉ Path.visited s.path.elements := by
    have hhere' : ∀ e' ∈ s.path.elements, Path.Matched s'.graph e' := by
      refine fun e' he' => hmatched e' ?_
      rw [hels, List.append_cons, ← hhere]
      exact List.mem_append_right _ he'
    exact Path.not_mem_visited_of_isSlot hhere' (by rw [hm]; rfl)
  rw [Option.toList_some, List.singleton_append,
    attempt_of_slot (s := ⟨arena, s.path⟩) hmkind hvisited htype] at hattempt
  obtain ⟨x, hx, hnothing⟩ := Option.map_eq_some_iff.mp hattempt
  -- What is in vain behind the one slot cannot be found behind the other one.
  have halike := alike_of_wired_eq (g := g) (harena.2 hs.wellFormed) harena'.1 (hregular.of_le hb)
    hmlt hnlt (by rw [hmkind]; rfl) (by rwa [← Graph.kind_of_le hb hnlt]) (by
      rw [← Graph.wired_of_le (le_trans harena'.1 hb) hmlt, hrivals.wired,
        Graph.wired_of_le hb hnlt]) s.path t
  obtain ⟨y, hy, hanswers⟩ := agrees_explore hg fuel halike hx
  obtain rfl := Option.some.inj (hfound.symm.trans hy)
  cases hanswers
  exact absurd hnothing nofun

end Search

theorem Graph.Leaves.regular_of_uniform {a b : Graph} {g : Grammar} {id : NodeId} {ctx : Context}
    {next : List NodeId} (h : a.Leaves g id ctx next b) (hg : g.Uniform) (ha : a.Regular) :
    b.Regular := by
  cases h with
  | enter _ hexpand => exact ha.addBody_of_template (hg.regular hexpand ctx) _
  | gate | switch | wired => exact ha

/-- A slot follows a node that is linked to it. -/
theorem Path.Follows.mem_targets_of_isSlot {graph : Graph} {g : Grammar} {n m : NodeId}
    (h : Path.Follows graph g n m) (hslot : (graph.kind m).isSlot = true) :
    m ∈ graph.targets n := by
  cases hk : graph.kind n with
  | ruleStart rule ident stop =>
    obtain ⟨ctx, hleads⟩ := h.leads
    obtain ⟨expand, base, -, rfl, hle⟩ := hleads.enter hk
    have hbody := Graph.addBody_hasBody base (expand ctx) stop
    have hentry : graph.kind base.size = .junction := by
      rw [Graph.kind_of_le hle hbody.region.lt, hbody.entry]
    rw [show (base.addBody (expand ctx) stop).1 = base.size from rfl, hentry] at hslot
    exact absurd hslot nofun
  | _ => exact h.mem_targets (by rw [hk]; rfl)

theorem Graph.Regular.isPlain_of_mem_targets {graph : Graph} {n m : NodeId} (h : graph.Regular)
    (hm : m ∈ graph.targets n) : (graph.kind n).isPlain = true := by
  have hregular := h n
  cases hk : graph.kind n with
  | ruleStart =>
    rw [Graph.targets, hk] at hm
    exact absurd hm List.not_mem_nil
  | gate | switch =>
    rw [hk] at hregular
    exact hregular.elim
  | _ => rfl

namespace Parser

variable {p : Parser} {text : List Char} {source : Option String} {fuel : Nat} {s : Search}

theorem hooksRevert_of_uniform (hg : p.grammar.Uniform) : p.HooksRevert text source := by
  intro r hr
  refine Path.reversible_of_regular (hr.arena (P := Graph.Regular) (Graph.regular_ofGrammar _) ?_) _
  exact fun _ _ _ _ _ hleaves _ ha => hleaves.regular_of_uniform hg ha

theorem regular_of_searchWithin (hg : p.grammar.Uniform)
    (h : p.searchWithin fuel text source = some (.ok s)) :
    s.graph.Regular := by
  obtain ⟨bound, hexplore⟩ := exists_explore_of_searchWithin (hooksRevert_of_uniform hg) h
  refine Search.arena_explore_of (R := fun a b => a.Regular → b.Regular) (fun _ => id)
    (fun h h' => h' ∘ h) ?_ hexplore (Graph.regular_ofGrammar _)
  exact fun hsucc => (Graph.leaves_of_successors hsucc).regular_of_uniform hg

/-- A slot on the path that was found follows a node, and no rival of it before that
slot can take the token. -/
theorem not_hasType_of_rivals (hg : p.grammar.Uniform) (hapart : p.grammar.EndsApart)
    (h : p.searchWithin fuel text source = some (.ok s))
    {e : PathElement} (he : e ∈ s.path.elements) {t : Token} (ht : e.token = some t)
    (hslot : (s.graph.kind e.node).isSlot = true) :
    ∃ parent ∈ s.path.elements, e.node ∈ s.graph.targets parent.node ∧
      ∀ m type, s.graph.Rivals parent.node type m e.node → t.hasType type.id = false := by
  have hooks : p.HooksRevert text source := hooksRevert_of_uniform hg
  obtain ⟨hvalid, -, hlegal, htip⟩ := legal_of_searchWithin hooks h
  obtain ⟨frames, hplaced⟩ := placed_of_searchWithin hapart h
  obtain ⟨bound, hexplore⟩ := exists_explore_of_searchWithin hooks h
  have hstart := Search.valid_start p.grammar
  obtain ⟨n, token⟩ := e
  obtain rfl : token = some t := ht
  obtain ⟨later, els, hels⟩ := List.append_of_mem he
  cases els with
  | nil =>
    -- The path starts with the root, which is no slot.
    have hlast := hplaced.getLast?_eq
    rw [hels, List.getLast?_concat] at hlast
    obtain rfl : n = Graph.root := Option.some.inj hlast
    rw [Graph.kind_root hvalid.base] at hslot
    exact absurd hslot nofun
  | cons parent els =>
    have hchain := hlegal.isChain hplaced
    rw [hels] at hchain
    have hfollows := (List.isChain_cons.mp (List.isChain_append.mp hchain).2.1).1 parent rfl
    have hmem := hfollows.mem_targets_of_isSlot hslot
    refine ⟨parent, hels ▸ List.mem_append_right _ (List.mem_cons_of_mem _ List.mem_cons_self),
      hmem, ?_⟩
    intro m type hrivals
    have hroot : (Search.start p.grammar).path.elements <:+ parent :: els :=
      List.suffix_of_suffix_length_le (Search.suffix_of_explore hexplore)
        (hels ▸ ((List.suffix_cons _ _).trans (List.suffix_append _ _))) (Nat.le_add_left 1 _)
    obtain ⟨fuel', arena, hground, hfound⟩ := Search.explore_of_suffix hexplore
      ⟨hstart.wellFormed, hstart.lt_size, Search.isReplay_start p.grammar⟩ (List.nil_append _)
      (hels.trans (List.append_cons ..)) hroot
    have hregular := regular_of_searchWithin hg h
    exact (Search.finds_of_explore hfound).not_hasType hg hground (Search.arena_explore hfound)
      hregular (Search.matched_of_legal hlegal htip) hels (Search.elements_ofElements ..)
      (hregular.isPlain_of_mem_targets hmem) hslot hrivals

end Parser

end GrammarGraph
