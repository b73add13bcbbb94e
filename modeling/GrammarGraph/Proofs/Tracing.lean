import GrammarGraph.Proofs.Performing
import GrammarGraph.Proofs.Termination

/-!
# Where a search of commands goes

Wherever a search of the grammar of commands goes, its path leads through instances of the two
bodies (`Sample.Commands.Tracks`): every step keeps to them (`Sample.Commands.Tracks.keeps`).  So
the hook is run in the scope of the script alone, in front of all statements, where its undo takes
it back (`Sample.Commands.hooksRevert_of_grammar`).
-/

namespace GrammarGraph

namespace Graph

variable {t : Graph} {i : Nat}

theorem targets_of_size_le (h : t.size ≤ i) : t.targets i = [] := by
  rw [targets, kind_of_size_le h]
  exact wired_of_size_le h

end Graph

namespace NodeKind

/-- The node neither opens nor hides a scope, and no hook is run on it. -/
def keepsScopes : NodeKind → Bool
  | slot _ _ none | junction | gate .. | switch .. => true
  | _ => false

def isHooked : NodeKind → Bool
  | slot _ _ (some _) => true
  | _ => false

@[simp] theorem keepsScopes_moved (k : Nat) (kind : NodeKind) :
    (kind.moved k).keepsScopes = kind.keepsScopes := by
  cases kind <;> rfl

@[simp] theorem isHooked_moved (k : Nat) (kind : NodeKind) :
    (kind.moved k).isHooked = kind.isHooked := by
  cases kind <;> rfl

end NodeKind

namespace Path

variable {graph : Graph} {g : Grammar} {e : PathElement} {els : List PathElement} {n : NodeId}

theorem scopes_replay_cons (h : (graph.kind e.node).keepsScopes = true) :
    (replay graph g (e :: els)).scopes = (replay graph g els).scopes := by
  rw [replay_cons]
  simp only [push]
  split
  · next hk => rw [hk] at h; cases h
  · next hk => rw [hk] at h; cases h
  · next hk _ => rw [hk] at h; cases h
  · rfl

theorem reverts_of_isHooked (h : (graph.kind n).isHooked = false) (p : Path)
    (token : Option Token) : p.Reverts graph n token := by
  unfold Reverts
  split
  · next hk _ => rw [hk] at h; cases h
  · trivial

end Path

namespace Sample.Commands

open GrammarGraph.Search GrammarGraph.Path

variable {graph a b : Graph} {els : List PathElement} {e : PathElement} {token : Option Token}
  {base lo i j n : Nat}

/-- Where a path can stand: on the start of the root rule, on a node of its body, in which an
instance of a command may be entered, on a node of the latter, or on the end of the root rule. -/
inductive Place where
  | root
  | script (base i : Nat)
  | command (base lo i : Nat)
  | finish

/-- The path leads through instances of the bodies to the place. -/
inductive Tracks (graph : Graph) : List PathElement → Place → Prop
  | root {token : Option Token} : Tracks graph [⟨Graph.root, token⟩] .root
  | enter {els : List PathElement} {base : Nat} {token : Option Token} : Tracks graph els .root →
      graph.Holds base scriptBody.template Graph.rootEnd →
      Tracks graph (⟨base + 0, token⟩ :: els) (.script base 0)
  | script {els : List PathElement} {base i j : Nat} {token : Option Token} :
      Tracks graph els (.script base i) → j ∈ scriptBody.template.targets i →
      Tracks graph (⟨base + j, token⟩ :: els) (.script base j)
  | call {els : List PathElement} {base lo : Nat} {token : Option Token} :
      Tracks graph els (.script base 6) → graph.Holds lo commandBody.template (base + 5) →
      Tracks graph (⟨lo + 0, token⟩ :: els) (.command base lo 0)
  | command {els : List PathElement} {base lo i j : Nat} {token : Option Token} :
      Tracks graph els (.command base lo i) → j ∈ commandBody.template.targets i →
      Tracks graph (⟨lo + j, token⟩ :: els) (.command base lo j)
  | leave {els : List PathElement} {base lo : Nat}
      {token : Option Token} : Tracks graph els (.command base lo 1) →
      Tracks graph (⟨base + 5, token⟩ :: els) (.script base 5)
  | finish {els : List PathElement} {base : Nat} {token : Option Token} :
      Tracks graph els (.script base 1) → Tracks graph (⟨Graph.rootEnd, token⟩ :: els) .finish

theorem lt_of_mem_targets_script (h : j ∈ scriptBody.template.targets i) : j < 9 := by
  have hlt : ∀ i < 9, ∀ j ∈ scriptBody.template.targets i, j < 9 := by decide +kernel
  by_cases hi : i < 9
  · exact hlt i hi j h
  · rw [Graph.targets_of_size_le (not_lt.mp hi)] at h
    exact absurd h List.not_mem_nil

theorem lt_of_mem_targets_command (h : j ∈ commandBody.template.targets i) : j < 16 := by
  have hlt : ∀ i < 16, ∀ j ∈ commandBody.template.targets i, j < 16 := by decide +kernel
  by_cases hi : i < 16
  · exact hlt i hi j h
  · rw [Graph.targets_of_size_le (not_lt.mp hi)] at h
    exact absurd h List.not_mem_nil

/-- What is in the arena where a path is at the place. -/
def Place.Wired (graph : Graph) : Place → Prop
  | root | finish => True
  | script base i => i < 9 ∧ graph.Holds base scriptBody.template Graph.rootEnd
  | command base lo i => i < 16 ∧ graph.Holds lo commandBody.template (base + 5) ∧
      graph.Holds base scriptBody.template Graph.rootEnd

def Place.node : Place → NodeId
  | root => Graph.root
  | script base i => base + i
  | command _ lo i => lo + i
  | finish => Graph.rootEnd

/-- The hook has not been run. -/
def Place.isFresh : Place → Bool
  | root => true
  | script _ i => i == 0 || i == 3
  | command .. | finish => false

namespace Tracks

variable {place : Place}

theorem wired (h : Tracks graph els place) : place.Wired graph := by
  induction h with
  | root | finish => trivial
  | enter _ hholds => exact ⟨by decide, hholds⟩
  | script _ hj ih => exact ⟨lt_of_mem_targets_script hj, ih.2⟩
  | call _ hholds ih => exact ⟨by decide, hholds, ih.2⟩
  | command _ hj ih => exact ⟨lt_of_mem_targets_command hj, ih.2⟩
  | leave _ ih => exact ⟨by decide, ih.2.2⟩

theorem tip (h : Tracks graph els place) : ∃ token rest, els = ⟨place.node, token⟩ :: rest := by
  cases h <;> exact ⟨_, _, rfl⟩

theorem ne_nil (h : Tracks graph els place) : els ≠ [] := by
  obtain ⟨_, _, rfl⟩ := h.tip
  exact List.cons_ne_nil _ _

theorem of_le (h : Tracks a els place) (hle : a ≤ b) : Tracks b els place := by
  induction h with
  | root => exact .root
  | enter _ hholds ih => exact .enter ih (hholds.of_le hle)
  | script _ hj ih => exact .script ih hj
  | call _ hholds ih => exact .call ih (hholds.of_le hle)
  | command _ hj ih => exact .command ih hj
  | leave _ ih => exact .leave ih
  | finish _ ih => exact .finish ih

/-- A slot on the tip may take any token. -/
theorem take {n : NodeId} (h : Tracks graph (⟨n, token⟩ :: els) place) (t : Option Token) :
    Tracks graph (⟨n, t⟩ :: els) place := by
  cases h with
  | root => exact .root
  | enter h hholds => exact .enter h hholds
  | script h hj => exact .script h hj
  | call h hholds => exact .call h hholds
  | command h hj => exact .command h hj
  | leave h => exact .leave h
  | finish h => exact .finish h

theorem pop (h : Tracks graph (e :: els) place) (hels : els ≠ []) :
    ∃ place, Tracks graph els place := by
  cases h with
  | root => exact absurd rfl hels
  | enter h | script h | call h | command h | leave h | finish h => exact ⟨_, h⟩

theorem target (h : Tracks graph els place) (hle : .ofGrammar grammar ≤ graph)
    (hn : n ∈ graph.targets place.node) : ∃ place, Tracks graph (⟨n, none⟩ :: els) place := by
  have hwired := h.wired
  cases place with
  | root =>
    rw [Graph.targets, Place.node, Graph.kind_root hle] at hn
    exact absurd hn List.not_mem_nil
  | script base i =>
    rcases hwired.2.mem_targets hwired.1 hn with ⟨j, hj, rfl⟩ | ⟨rfl, rfl⟩
    · exact ⟨_, .script h hj⟩
    · exact ⟨_, .finish h⟩
  | command base lo i =>
    rcases hwired.2.1.mem_targets hwired.1 hn with ⟨j, hj, rfl⟩ | ⟨rfl, rfl⟩
    · exact ⟨_, .command h hj⟩
    · exact ⟨_, .leave h⟩
  | finish =>
    rw [Place.node, Graph.targets_rootEnd hle] at hn
    exact absurd hn List.not_mem_nil

theorem entry {rule : RuleId} {ident : Option String} {stop : NodeId} {expand : Context → Body}
    {ctx : Context} (h : Tracks graph els place) (hle : .ofGrammar grammar ≤ graph)
    (hk : graph.kind place.node = .ruleStart rule ident stop)
    (hexpand : grammar.expand? rule = some expand) :
    ∃ place, Tracks (graph.addBody (expand ctx) stop).2 (⟨graph.size, none⟩ :: els) place := by
  have hgrown := (Graph.addBody_hasBody graph (expand ctx) stop).le
  have hwired := h.wired
  cases place with
  | root =>
    obtain ⟨rfl, rfl, rfl⟩ := NodeKind.ruleStart.inj ((Graph.kind_root hle).symm.trans hk)
    obtain rfl := Option.some.inj (expand_script.symm.trans hexpand)
    have hholds := Graph.holds_addBody (lt_of_lt_of_le Nat.zero_lt_two hle.1) scriptBody
    exact ⟨_, .enter (h.of_le hgrown) hholds⟩
  | script base i =>
    have hcall : ∀ i < 9, (scriptBody.template.kind i).startedRule? = none ∨ i = 6 := by
      decide +kernel
    have hk : graph.kind (base + i) = .ruleStart rule ident stop := hk
    have hk' := hwired.2.kind_eq hwired.1
    rcases hcall i hwired.1 with hnone | rfl
    · rw [← NodeKind.startedRule?_moved base, ← hk', hk] at hnone
      cases hnone
    · have hstart : graph.kind (base + 6) = .ruleStart 0 none (base + 5) := hk'
      obtain ⟨rfl, rfl, rfl⟩ := NodeKind.ruleStart.inj (hstart.symm.trans hk)
      obtain rfl := Option.some.inj (expand_command.symm.trans hexpand)
      have hlt : base + 5 < graph.size :=
        lt_of_lt_of_le (Nat.add_lt_add_left (by decide) base) hwired.2.size_le
      exact ⟨_, .call (h.of_le hgrown) (Graph.holds_addBody hlt commandBody)⟩
  | command base lo i =>
    have hnone : ∀ i < 16, (commandBody.template.kind i).startedRule? = none := by decide +kernel
    have hk : graph.kind (lo + i) = .ruleStart rule ident stop := hk
    have hk' := hwired.2.1.kind_eq hwired.1
    have hstart := hnone i hwired.1
    rw [← NodeKind.startedRule?_moved lo, ← hk', hk] at hstart
    cases hstart
  | finish =>
    rw [Place.node, Graph.kind_rootEnd hle] at hk
    cases hk

/-- Every step of a search keeps to the instances. -/
theorem keeps : Search.Keeps grammar fun graph els => .ofGrammar grammar ≤ graph ∧
    ∃ place, Tracks graph els place where
  wire := fun ⟨hle, place, h⟩ hleaves => ⟨le_trans hle hleaves.le, place, h.of_le hleaves.le⟩
  step := by
    rintro a b tip els ctx next n ⟨hle, place, h⟩ hleaves hn
    refine ⟨le_trans hle hleaves.le, ?_⟩
    obtain ⟨token, rest, hels⟩ := h.tip
    obtain ⟨rfl, rfl⟩ := List.cons.inj hels
    rcases hleaves.mem_targets_or_entry hn with ⟨hn, rfl⟩ | ⟨rfl, rule, ident, stop, hk, -⟩
    · exact h.target hle hn
    · obtain ⟨expand, hexpand, rfl⟩ := hleaves.of_ruleStart hk
      exact h.entry hle hk hexpand
  take := fun t ⟨hle, place, h⟩ _ => ⟨hle, place, h.take (some t)⟩
  pop := fun ⟨hle, place, h⟩ hels => ⟨hle, h.pop hels⟩

/-! ### The hook -/

/-- In front of the hook the scope of the script is as the rule has it. -/
theorem scopes_of_isFresh (h : Tracks graph els place) (hle : .ofGrammar grammar ≤ graph)
    (hfresh : place.isFresh = true) :
    (replay graph grammar els).scopes = [.active (grammar.ruleVars 1)] := by
  induction h with
  | @root token =>
    have hroot := Graph.kind_root hle
    rw [replay_cons]
    simp only [Path.push, hroot]
    rfl
  | enter _ hholds ih =>
    rw [scopes_replay_cons (by rw [hholds.kind_eq (by decide)]; rfl)]
    exact ih rfl
  | @script els base i j token h hj ih =>
    have hback : ∀ i < 9, ∀ j ∈ scriptBody.template.targets i, j ≠ 0 ∧ (j = 3 → i = 0) := by
      decide +kernel
    have hwired := h.wired
    obtain ⟨hj₀, hj₃⟩ := hback i hwired.1 j hj
    obtain rfl : j = 3 := by simpa [Place.isFresh, hj₀] using hfresh
    obtain rfl := hj₃ rfl
    rw [scopes_replay_cons (by rw [hwired.2.kind_eq (by decide)]; rfl)]
    exact ih rfl
  | call | command | leave | finish => cases hfresh

/-- The hook is run only in the scope of the script in front of all statements,
where it can be taken back. -/
theorem reversible (h : Tracks graph els place) (hle : .ofGrammar grammar ≤ graph) :
    Reversible graph grammar els := by
  induction h with
  | root => exact ⟨reverts_of_isHooked (by rw [Graph.kind_root hle]; rfl) _ _, trivial⟩
  | enter _ hholds ih =>
    exact ⟨reverts_of_isHooked (by rw [hholds.kind_eq (by decide)]; rfl) _ _, ih⟩
  | @script els base i j token h hj ih =>
    refine ⟨?_, ih⟩
    have hhook : ∀ i < 9, ∀ j ∈ scriptBody.template.targets i,
        (scriptBody.template.kind j).isHooked = false ∨ j = 2 ∧ i = 3 := by decide +kernel
    have hk := h.wired.2.kind_eq (lt_of_mem_targets_script hj)
    rcases hhook i h.wired.1 j hj with hnone | ⟨rfl, rfl⟩
    · exact reverts_of_isHooked (by rw [hk, NodeKind.isHooked_moved, hnone]) _ _
    · have hslot : graph.kind (base + 2) = .slot strict none (some setStrict) := hk
      have hscopes := h.scopes_of_isFresh hle rfl
      unfold Reverts
      simp only [hslot, hscopes]
      cases token with
      | none => trivial
      | some t => rfl
  | call _ hholds ih =>
    exact ⟨reverts_of_isHooked (by rw [hholds.kind_eq (by decide)]; rfl) _ _, ih⟩
  | @command els base lo i j token h hj ih =>
    have hnone : ∀ j < 16, (commandBody.template.kind j).isHooked = false := by decide +kernel
    have hlt := lt_of_mem_targets_command hj
    refine ⟨reverts_of_isHooked ?_ _ _, ih⟩
    rw [h.wired.2.1.kind_eq hlt, NodeKind.isHooked_moved, hnone j hlt]
  | leave h ih => exact ⟨reverts_of_isHooked (by rw [h.wired.2.2.kind_eq (by decide)]; rfl) _ _, ih⟩
  | finish _ ih => exact ⟨reverts_of_isHooked (by rw [Graph.kind_rootEnd hle]; rfl) _ _, ih⟩

end Tracks

/-- Whatever the text, the hook is taken back where the search steps back over it. -/
theorem hooksRevert_of_grammar {p : Parser} (hg : p.grammar = grammar) (text : List Char)
    (source : Option String) : p.HooksRevert text source := by
  obtain ⟨g, lx, full, tree⟩ := p
  obtain rfl : g = grammar := hg
  intro r hr
  obtain ⟨hle, place, h⟩ := hr.keeps_path Tracks.keeps ⟨le_refl _, _, .root⟩
  exact h.reversible hle

end Sample.Commands

end GrammarGraph
