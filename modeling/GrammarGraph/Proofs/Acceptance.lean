import GrammarGraph.Proofs.Conservation
import GrammarGraph.Proofs.Linking
import GrammarGraph.Proofs.Nesting
import GrammarGraph.Sample

/-!
# Where a search succeeds, and with which tree

A search succeeds on the end of a rule that is linked to nothing.  If the bodies link all that they
build then this is the end of the root rule.  If they also keep the ends of rules apart, all rule
instances on the path are closed, and the tree is the node of the root rule with all the tokens
(`Parser.ends_of_searchWithin`).  But the end of
any reference that a body leaves unlinked will do as well (`Sample.Unlinked`): then instances are
still open, and the tree is the unfinished node of the innermost one.
-/

namespace GrammarGraph

namespace Tree

mutual

/-- The tokens of the leaves, from left to right. -/
def tokens : Tree → List Token
  | ⟨_, _, _, children, token⟩ => token.toList ++ tokensOfAll children

def tokensOfAll : List Tree → List Token
  | [] => []
  | t :: ts => tokens t ++ tokensOfAll ts

end

theorem tokensOfAll_append :
    ∀ ts us : List Tree, tokensOfAll (ts ++ us) = tokensOfAll ts ++ tokensOfAll us
  | [], _ => rfl
  | t :: ts, us => by
    rw [List.cons_append, tokensOfAll, tokensOfAll, tokensOfAll_append ts us, List.append_assoc]

@[simp] theorem tokens_addChild (t child : Tree) :
    (t.addChild child).tokens = t.tokens ++ child.tokens := by
  obtain ⟨name, text, id, children, token⟩ := t
  rw [addChild, tokens, tokensOfAll_append, tokensOfAll, tokensOfAll, List.append_nil,
    ← List.append_assoc, tokens]

@[simp] theorem tokens_ofToken (t : Token) (id : String) : (ofToken t id).tokens = [t] := rfl

@[simp] theorem transformed_parseTree (g : Grammar) (rule : RuleId) (t : Tree) :
    t.transformed g .parseTree rule = t := by
  unfold transformed
  split
  · next h _ => exact absurd h nofun
  · rfl

/-- Name and id of a node, which do not change while children are added. -/
def label (t : Tree) : String × String := (t.name, t.id)

/-- `opened` are the nodes still open behind the elements (the tip first), the innermost node first.
The outermost is the node of the root rule; in a parse tree they have all the tokens. -/
structure Opens (g : Grammar) (graph : Graph) (kind : TreeKind) (els : List PathElement)
    (opened : List Tree) : Prop where
  reduce :
    ∀ rest, reduceFrom g graph kind (els.reverse ++ rest) [] = reduceFrom g graph kind rest opened
  root : opened.getLast?.map label = some (g.ruleName g.root, g.ident.getD "")
  tokens : kind = .parseTree → opened.reverse.flatMap Tree.tokens = Path.tokensOf els

namespace Opens

variable {g : Grammar} {graph : Graph} {kind : TreeKind} {els : List PathElement} {e : PathElement}
  {opened outer : List Tree} {t parent : Tree}

/-- It is enough to follow one more element. -/
theorem cons {opened' : List Tree} (h : Opens g graph kind els opened) (hreduce : ∀ rest,
      reduceFrom g graph kind (e :: rest) opened = reduceFrom g graph kind rest opened')
    (hroot : opened'.getLast?.map label = opened.getLast?.map label)
    (htokens : kind = .parseTree →
      opened'.reverse.flatMap Tree.tokens = opened.reverse.flatMap Tree.tokens ++ e.token.toList) :
    Opens g graph kind (e :: els) opened' where
  reduce rest := by
    rw [List.reverse_cons, List.append_assoc, h.reduce, List.singleton_append, hreduce]
  root := hroot.trans h.root
  tokens hkind := by rw [htokens hkind, h.tokens hkind, Path.tokensOf_cons]

theorem ne_nil (h : Opens g graph kind els opened) : opened ≠ [] := by
  rintro rfl
  exact absurd h.root nofun

/-- A child is added to the innermost node. -/
theorem addChild (h : Opens g graph kind els (t :: outer)) (child : Tree)
    (hreduce : ∀ rest, reduceFrom g graph kind (e :: rest) (t :: outer) =
      reduceFrom g graph kind rest (t.addChild child :: outer))
    (htokens : kind = .parseTree → child.tokens = e.token.toList) :
    Opens g graph kind (e :: els) (t.addChild child :: outer) := by
  refine h.cons hreduce ?_ fun hkind => ?_
  · cases outer <;> rfl
  · simp [htokens hkind]

/-- An element that ends no rule instance opens a node if it starts one, and closes none. -/
theorem step (h : Opens g graph kind els opened) (hend : (graph.kind e.node).isRuleEnd = false)
    (hslot : e.token.isSome = true → (graph.kind e.node).isSlot = true) :
    ∃ opened', Opens g graph kind (e :: els) opened' ∧
      opened'.length = (graph.kind e.node).stop?.toList.length + opened.length := by
  obtain ⟨t, outer, rfl⟩ := List.exists_cons_of_ne_nil h.ne_nil
  cases hk : graph.kind e.node with
  | ruleEnd =>
    rw [hk] at hend
    exact absurd hend nofun
  | ruleStart rule ident stop =>
    have hnone : e.token = none := by
      rw [hk] at hslot
      simpa [NodeKind.isSlot] using hslot
    refine ⟨⟨g.ruleName rule, "", ident.getD "", [], none⟩ :: t :: outer,
      h.cons (fun rest => ?_) rfl fun _ => ?_, ?_⟩
    · rw [reduceFrom]
      simp only [hk, hnone]
      rfl
    · simp [hnone, Tree.tokens, Tree.tokensOfAll]
    · rw [NodeKind.stop?, List.length_cons, Nat.add_comm]
      rfl
  | slot type ident hook =>
    cases htoken : e.token with
    | none =>
      refine ⟨t :: outer, h.cons (fun rest => ?_) rfl fun _ => ?_, (Nat.zero_add _).symm⟩
      · rw [reduceFrom]
        simp only [hk, htoken]
      · rw [htoken, Option.toList_none, List.append_nil]
    | some token =>
      refine ⟨_, h.addChild (.ofToken token (ident.getD "")) (fun rest => ?_) fun _ => ?_,
        (Nat.zero_add _).symm⟩
      · rw [reduceFrom]
        simp only [hk, htoken]
      · rw [htoken, tokens_ofToken, Option.toList_some]
  | junction | gate | switch =>
    have hnone : e.token = none := by
      rw [hk] at hslot
      simpa [NodeKind.isSlot] using hslot
    refine ⟨t :: outer, h.cons (fun rest => ?_) rfl fun _ => ?_, (Nat.zero_add _).symm⟩
    · rw [reduceFrom]
      simp only [hk]
    · rw [hnone, Option.toList_none, List.append_nil]

/-- The end of an inner rule instance closes its node. -/
theorem close {rule : RuleId} {ident : Option String}
    (h : Opens g graph kind els (t :: parent :: outer))
    (hk : graph.kind e.node = .ruleEnd rule ident) (hnone : e.token = none) :
    Opens g graph kind (e :: els) (parent.addChild (t.transformed g kind rule) :: outer) := by
  refine h.cons (fun rest => ?_) ?_ fun hkind => ?_
  · rw [reduceFrom]
    simp only [hk]
  · cases outer <;> rfl
  · simp [hkind, hnone]

end Opens

end Tree

namespace Path.Placed

variable {graph : Graph} {g : Grammar} {els : List PathElement} {e : PathElement}
  {frames : List Frame}

/-- The element in front of another one is not the end of the root rule. -/
theorem openAt_ne_nil_of_mem_targets {n : NodeId} (h : Placed graph g (e :: els) frames)
    (hn : n ∈ graph.targets e.node) : openAt graph (e :: els) frames ≠ [] := by
  rw [ne_eq, h.openAt_eq_nil]
  intro hroot
  rw [hroot, Graph.targets_rootEnd h.base_le] at hn
  exact absurd hn List.not_mem_nil

/-- While rule instances are open, there is one open node for each of them. -/
theorem exists_opens (kind : TreeKind) (h : Placed graph g els frames)
    (hopen : openAt graph els frames ≠ []) : ∃ opened, Tree.Opens g graph kind els opened ∧
      opened.length = (openAt graph els frames).length := by
  induction h with
  | root hbase =>
    have hk := Graph.kind_root hbase
    refine ⟨[⟨g.ruleName g.root, "", g.ident.getD "", [], none⟩],
      ⟨fun rest => ?_, rfl, fun _ => rfl⟩, ?_⟩
    · rw [List.reverse_singleton, List.singleton_append, Tree.reduceFrom]
      simp only [hk]
      rfl
    · rw [openAt_cons, hk]
      rfl
  | @inside els parent e f fs hplaced htargets _ hend hslot ih =>
    obtain ⟨opened, hopens, hlength⟩ := ih (hplaced.openAt_ne_nil_of_mem_targets htargets)
    obtain ⟨opened', hopens', hlength'⟩ := hopens.step hend hslot
    refine ⟨opened', hopens', ?_⟩
    rw [hlength', hlength, openAt_cons, openAt_cons, Graph.stop?_of_mem_targets htargets,
      Option.toList_none, List.nil_append, List.length_append]
  | @leave els parent f f' fs hplaced htargets ih =>
    obtain ⟨ident, hk⟩ := hplaced.nested.kind_stop
    have hinner :
        openAt graph (parent :: els) (f' :: f :: fs) = f'.stop :: (f :: fs).dropLast.map (·.stop) :=
      openAt_of_stop? (Graph.stop?_of_mem_targets htargets) els _
    obtain ⟨opened, hopens, hlength⟩ := ih (hplaced.openAt_ne_nil_of_mem_targets htargets)
    rw [openAt_of_stop? (by rw [hk]; rfl)] at hopen ⊢
    rw [hinner, List.length_cons] at hlength
    have hpos := List.length_pos_of_ne_nil hopen
    match opened, hlength with
    | t :: parent :: outer, hlength => exact ⟨_, hopens.close hk rfl, Nat.succ.inj hlength⟩
    | [t], hlength =>
      -- The instance that ends is not the outermost one.
      exact absurd (Nat.succ.inj hlength) (Nat.ne_of_lt hpos)
  | @enter els parent f f' fs ident hplaced hk hentry _ ih =>
    have hinner :
        openAt graph (parent :: els) (f :: fs) = f'.stop :: (f :: fs).dropLast.map (·.stop) := by
      rw [openAt_cons, hk]
      rfl
    have hstop : (graph.kind f'.lo).stop? = none := by
      rw [hentry]
      rfl
    obtain ⟨opened, hopens, hlength⟩ := ih (by rw [hinner]; exact List.cons_ne_nil _ _)
    obtain ⟨opened', hopens', hlength'⟩ :=
      hopens.step (e := ⟨f'.lo, none⟩) (by rw [hentry]; rfl) nofun
    refine ⟨opened', hopens', ?_⟩
    rw [hlength', hlength, hinner, openAt_of_stop? hstop, hstop]
    exact Nat.zero_add _

end Path.Placed

/-- A descent without a token arrives on the end of a rule that is linked to nothing. -/
theorem Search.Arrives.on_end {g : Grammar} {token : Option Token} {s s' : Search}
    (h : Arrives g token s s') (hnone : token = none) :
    ∃ tip, s'.path.tip? = some tip ∧ s'.graph.Loose tip.node := by
  induction h with
  | taken _ _ hany =>
    rw [hnone] at hany
    exact absurd hany nofun
  | @complete s tip graph ht _ hsucc hend =>
    have hk := (Bool.and_eq_true_iff.mp hend).2
    rw [Graph.successors_of_isPlain g (NodeKind.isPlain_of_isRuleEnd hk)] at hsucc
    obtain ⟨hwired, rfl⟩ := Prod.mk.inj hsucc
    exact ⟨tip, ht, hk, Option.some.inj hwired⟩
  | step _ _ _ _ _ _ ih => exact ih

namespace Graph

theorem Loose.eq_rootEnd {g : Grammar} {id : NodeId} (h : (ofGrammar g).Loose id) :
    id = rootEnd := by
  rcases Nat.le_one_iff_eq_zero_or_eq_one.mp (Nat.le_of_lt_succ h.lt_size) with rfl | rfl
  · rfl
  · exact absurd h.1 nofun

end Graph

/-- If all bodies link what they build, the end of the root rule stays the only one
that is linked to nothing. -/
theorem Search.keeps_loose {g : Grammar} (hg : g.Links) :
    Keeps g fun graph _ => ∀ id, graph.Loose id → id = Graph.rootEnd where
  wire := fun h hleaves id hid => h id (hleaves.loose hg hid)
  step := fun h hleaves _ id hid => h id (hleaves.loose hg hid)
  take := fun _ h _ => h
  pop := fun h _ => h

/-- Only slots have tokens. -/
theorem Search.keeps_slots (g : Grammar) :
    Keeps g fun graph els => ∀ e ∈ els, e.token.isSome = true →
      (graph.kind e.node).isSlot = true := by
  have hwire : ∀ {a b : Graph} {els : List PathElement}, a ≤ b →
      (∀ e ∈ els, e.token.isSome = true → (a.kind e.node).isSlot = true) →
      ∀ e ∈ els, e.token.isSome = true → (b.kind e.node).isSlot = true := by
    intro a b els hle h e he htoken
    have hslot := h e he htoken
    rwa [Graph.kind_of_le hle (Graph.lt_size_of_isSlot hslot)]
  exact
    { wire := fun h hleaves => hwire hleaves.le h
      step := fun h hleaves _ => List.forall_mem_cons.mpr ⟨nofun, hwire hleaves.le h⟩
      take := fun t h hk =>
        List.forall_mem_cons.mpr ⟨fun _ => by rw [hk]; rfl, (List.forall_mem_cons.mp h).2⟩
      pop := fun h _ => (List.forall_mem_cons.mp h).2 }

namespace Parser

open GrammarGraph.Path

variable {p : Parser} {text : List Char} {source : Option String} {fuel : Nat} {s : Search}

theorem placed_of_searchWithin (hg : p.grammar.EndsApart)
    (h : p.searchWithin fuel text source = some (.ok s)) :
    ∃ frames, Placed s.graph p.grammar s.path.elements frames :=
  keeps_path_of_searchWithin (Placed.keeps hg) ⟨_, .root (le_refl _)⟩ h

theorem tip_of_searchWithin (h : p.searchWithin fuel text source = some (.ok s)) :
    ∃ stop, s.path.tip? = some ⟨stop, none⟩ ∧ s.graph.Loose stop := by
  obtain ⟨r, hr, hstep⟩ := exists_done h
  obtain ⟨t, -, -, harrives⟩ := Run.arrives_of_step hr.valid.two_le hstep
  obtain ⟨⟨stop, token⟩, ht, hloose⟩ := harrives.on_end rfl
  have hslots := keeps_path_of_searchWithin (Search.keeps_slots p.grammar) (by simp) h ⟨stop, token⟩
    (List.mem_of_mem_head? ht)
  cases token with
  | none => exact ⟨stop, ht, hloose⟩
  | some t =>
    exact absurd (hloose.1.symm.trans (NodeKind.isRuleEnd_of_isSlot (hslots rfl))) nofun

/-- Where all bodies link what they build, a search succeeds on the end of the root rule alone. -/
theorem rootEnd_of_searchWithin (hlinks : p.grammar.Links)
    (h : p.searchWithin fuel text source = some (.ok s)) :
    s.path.tip? = some ⟨Graph.rootEnd, none⟩ := by
  obtain ⟨stop, ht, hloose⟩ := tip_of_searchWithin h
  have hroot :=
    keeps_path_of_searchWithin (Search.keeps_loose hlinks) (fun _ => Graph.Loose.eq_rootEnd) h
  rw [ht, hroot stop hloose]

/-- While rule instances are open the tree is the node of the innermost one.  A parse tree of
it has the last tokens. -/
theorem treeOf_of_open {frames : List Frame} (h : Placed s.graph p.grammar s.path.elements frames)
    (hopen : openAt s.graph s.path.elements frames ≠ []) (htree : p.tree = .parseTree) :
    (p.treeOf s).tokens <:+ s.path.tokens := by
  obtain ⟨opened, hopens, -⟩ := h.exists_opens p.tree hopen
  obtain ⟨t, outer, rfl⟩ := List.exists_cons_of_ne_nil hopens.ne_nil
  have hreduce := hopens.reduce []
  have htokens := hopens.tokens htree
  rw [List.append_nil] at hreduce
  rw [treeOf, Tree.reduce, Path.toList, hreduce, Path.tokens_eq, ← htokens]
  simp [Tree.reduceFrom]

/-- The tree of a path that ends on the end of the root rule is the finished node of the root
rule. -/
theorem treeOf_of_rootEnd {e : PathElement} {els : List PathElement} {frames : List Frame}
    (h : Placed s.graph p.grammar (e :: els) frames) (hels : s.path.elements = e :: els)
    (hroot : e.node = Graph.rootEnd) :
    ∃ t : Tree, p.treeOf s = t.transformed p.grammar p.tree p.grammar.root ∧
      t.label = (p.grammar.ruleName p.grammar.root, p.grammar.ident.getD "") ∧
      (p.tree = .parseTree → (p.treeOf s).tokens = s.path.tokens) := by
  have hk : s.graph.kind e.node = .ruleEnd p.grammar.root p.grammar.ident :=
    hroot ▸ Graph.kind_rootEnd h.base_le
  have hclosed := h.openAt_eq_nil.mpr hroot
  rw [openAt_of_stop? (by rw [hk]; rfl)] at hclosed
  obtain ⟨parent, rest, f, f', fs, rfl, rfl, rfl, hplaced, htargets⟩ :=
    h.of_isRuleEnd (by rw [hk]; rfl)
  obtain ⟨opened, hopens, hlength⟩ :=
    hplaced.exists_opens p.tree (hplaced.openAt_ne_nil_of_mem_targets htargets)
  rw [openAt_of_stop? (Graph.stop?_of_mem_targets htargets), List.dropLast_cons_cons, List.map_cons,
    hclosed] at hlength
  -- Only the node of the root rule is open in front of its end.
  obtain ⟨t, rfl⟩ := List.length_eq_one_iff.mp hlength
  have htree : p.treeOf s = t.transformed p.grammar p.tree p.grammar.root := by
    rw [treeOf, Tree.reduce, Path.toList, hels, List.reverse_cons, hopens.reduce, Tree.reduceFrom]
    simp only [hk]
  refine ⟨t, htree, Option.some.inj hopens.root, fun hkind => ?_⟩
  have htokens := hopens.tokens hkind
  rw [htree, hkind, Tree.transformed_parseTree, Path.tokens_eq, hels, tokensOf_cons, ← htokens]
  simp

/-- A search succeeds on the end of a rule that is linked to nothing, which is that of the root rule
if the bodies link all that they build.  Where no link leads to the end of a rule, no rule instance
is open there just if it is the end of the root rule; then the tree is the finished node of the root
rule, and a parse tree has all the tokens.  Otherwise a parse tree has only the last of them. -/
theorem ends_of_searchWithin (h : p.searchWithin fuel text source = some (.ok s)) :
    ∃ stop, s.path.tip? = some ⟨stop, none⟩ ∧ s.graph.Loose stop ∧
      (p.grammar.Links → stop = Graph.rootEnd) ∧
      (p.grammar.EndsApart → ∃ ends,
        openEnds? s.graph s.path.elements = some ends ∧ (ends = [] ↔ stop = Graph.rootEnd) ∧
        (p.tree = .parseTree → (p.treeOf s).tokens <:+ s.path.tokens) ∧
        (stop = Graph.rootEnd →
          ∃ t : Tree, p.treeOf s = t.transformed p.grammar p.tree p.grammar.root ∧
            t.label = (p.grammar.ruleName p.grammar.root, p.grammar.ident.getD "") ∧
            (p.tree = .parseTree → (p.treeOf s).tokens = s.path.tokens))) := by
  obtain ⟨stop, ht, hloose⟩ := tip_of_searchWithin h
  refine ⟨stop, ht, hloose, ?_, ?_⟩
  · intro hlinks
    have hroot := ht.symm.trans (rootEnd_of_searchWithin hlinks h)
    exact congrArg PathElement.node (Option.some.inj hroot)
  · intro hg
    obtain ⟨frames, hplaced⟩ := placed_of_searchWithin hg h
    obtain ⟨els, hels⟩ := Search.exists_rest ht
    have htip := hplaced
    rw [hels] at htip
    have hroot := htip.openAt_eq_nil
    have htree := fun hnode => treeOf_of_rootEnd htip hels hnode
    rw [← hels] at hroot
    refine ⟨_, hplaced.openEnds?_eq, hroot, ?_, htree⟩
    intro hkind
    by_cases hnode : stop = Graph.rootEnd
    · obtain ⟨_, -, -, htokens⟩ := htree hnode
      rw [htokens hkind]
    · exact treeOf_of_open hplaced (mt hroot.mp hnode) hkind

end Parser

namespace Sample.Boundary

theorem links_grammar : grammar.Links := by
  apply Grammar.links_of_ofPiece
  intro rule expand hexpand ctx
  match rule, hexpand with
  | 0, hexpand | 1, hexpand =>
    obtain rfl := Option.some.inj hexpand
    exact ⟨_, rfl⟩

theorem ends_of_searchWithin_boundary : ∃ (s : Search) (t : Tree),
    (Parser.ofGrammar grammar).searchWithin 100 "a b d".toList none = some (.ok s) ∧
    s.path.tip? = some ⟨Graph.rootEnd, none⟩ ∧ Path.openEnds? s.graph s.path.elements = some [] ∧
    (Parser.ofGrammar grammar).treeOf s = t.transformed grammar .ast 1 ∧
    t.label = ("boundary", "") := by
  have hok : ((Parser.ofGrammar grammar).searchWithin 100 "a b d".toList none).any
      (·.toOption.any fun _ => true) = true := by decide +kernel
  obtain ⟨s, hsearch, -⟩ := Parser.exists_ok_of_any hok
  obtain ⟨stop, htip, -, hlinks, hapart⟩ := Parser.ends_of_searchWithin hsearch
  obtain rfl := hlinks links_grammar
  obtain ⟨ends, hends, hopen, -, htree⟩ := hapart endsApart_grammar
  obtain ⟨t, hreduce, hlabel, -⟩ := htree rfl
  rw [hopen.mpr rfl] at hends
  exact ⟨s, t, hsearch, htip, hends, hreduce, hlabel⟩

end Sample.Boundary

namespace Sample.Unlinked

def a : TokenType := ⟨1, .keyword "a" true⟩
def x : TokenType := ⟨2, .keyword "x" true⟩

def inner : Rule := { name := "inner", expand := some fun _ => .ofPiece (.token a) }

/-- Links the entry to the reference, and the reference to nothing. -/
def outer : Rule :=
  { name := "outer", expand := some fun _ => [.part (.rule 0), .chain [.entry, .part 0]] }

def top : Rule :=
  { name := "top", expand := some fun _ => .ofPiece (.sequence [.token x, .rule 1]) }

def parser : Parser :=
  .ofGrammar { types := ⟨[a, x]⟩, rules := [inner, outer, top], root := 2, ident := none }

def parseTrees : Parser := { parser with tree := .parseTree }

/-- The end of the root rule cannot be reached, but the search succeeds on the end of the reference.
The tree is that of the rule around it, without what came before. -/
theorem accepts_unlinked : ∃ s, parser.searchWithin 100 "x a".toList none = some (.ok s) ∧
    (∀ tip, s.path.tip? = some tip → tip.node ≠ Graph.rootEnd) ∧
    Path.openEnds? s.graph s.path.elements ≠ some [] ∧ (parser.treeOf s).name = "outer" ∧
    (parseTrees.treeOf s).tokens.map (·.text) = ["a"] ∧
    s.path.tokens.map (·.text) = ["x", "a"] := by
  have hok : ((parser.searchWithin 100 "x a".toList none).any (·.toOption.any fun s =>
      (s.path.tip?.all fun tip => tip.node != Graph.rootEnd) &&
        (Path.openEnds? s.graph s.path.elements).all (!·.isEmpty) &&
        (parser.treeOf s).name == "outer" && (parseTrees.treeOf s).tokens.map (·.text) == ["a"] &&
        s.path.tokens.map (·.text) == ["x", "a"])) = true := by
    decide +kernel
  obtain ⟨s, hsearch, hs⟩ := Parser.exists_ok_of_any hok
  simp only [Bool.and_eq_true, Option.all_eq_true, bne_iff_ne, beq_iff_eq, Bool.not_eq_true',
    List.isEmpty_eq_false_iff] at hs
  obtain ⟨⟨⟨⟨htip, hopen⟩, hname⟩, htree⟩, htokens⟩ := hs
  exact ⟨s, hsearch, htip, fun hnil => hopen [] hnil rfl, hname, htree, htokens⟩

end Sample.Unlinked

end GrammarGraph
