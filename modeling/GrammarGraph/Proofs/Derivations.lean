import GrammarGraph.Proofs.Acceptance

/-!
# The tree of a complete path

A complete path runs from the start of the root rule to its end, and the rule instances along it
close in turn (`Path.Complete`).  What an instance derives are the tokens of its own slots and its
nested instances, in the order of the path (`Path.Derives`).  A parse tree has one node for each
instance (`Derivation.parseTree`), and the other kind of tree rewrites it from the leaves up
(`Derivation.rewritten`): the fold over the path, which keeps the nodes that are open on a stack,
computes both (`Path.Complete.reduce_eq`).
-/

namespace GrammarGraph

/-- What the elements of a path derive, once the instances among them are closed. -/
inductive Derivation where
  /-- A token that a slot took. -/
  | leaf (type : TokenType) (ident : Option String) (token : Token)
  /-- An instance of a rule, with the identifier of its reference. -/
  | node (rule : RuleId) (ident : Option String) (children : List Derivation)

namespace Derivation

mutual

/-- One node for each rule instance and one leaf for each token. -/
def parseTree (g : Grammar) : Derivation → Tree
  | leaf _ ident token => .ofToken token (ident.getD "")
  | node rule ident children => ⟨g.ruleName rule, "", ident.getD "", parseTrees g children, none⟩

def parseTrees (g : Grammar) : List Derivation → List Tree
  | [] => []
  | d :: ds => parseTree g d :: parseTrees g ds

end

mutual

/-- The parse tree rewritten from the leaves up: the transformation of a rule, if it has one, is
applied to each of its nodes, behind those of the children, and then the node gets its id back. -/
def rewritten (g : Grammar) : Derivation → Tree
  | leaf _ ident token => .ofToken token (ident.getD "")
  | node rule ident children =>
    let t : Tree := ⟨g.ruleName rule, "", ident.getD "", rewrittenAll g children, none⟩
    match g.transform? rule with
    | some f => { f t with id := ident.getD "" }
    | none => t

def rewrittenAll (g : Grammar) : List Derivation → List Tree
  | [] => []
  | d :: ds => rewritten g d :: rewrittenAll g ds

end

/-- The tree of either kind. -/
def tree (g : Grammar) : TreeKind → Derivation → Tree
  | .parseTree => parseTree g
  | .ast => rewritten g

@[simp] theorem tree_leaf (g : Grammar) (kind : TreeKind) (type : TokenType) (ident : Option String)
    (token : Token) : (leaf type ident token).tree g kind = .ofToken token (ident.getD "") := by
  cases kind <;> rfl

theorem parseTrees_eq_map (g : Grammar) :
    ∀ ds : List Derivation, parseTrees g ds = ds.map (parseTree g)
  | [] => rfl
  | d :: ds => by rw [parseTrees, parseTrees_eq_map g ds, List.map_cons]

theorem rewrittenAll_eq_map (g : Grammar) :
    ∀ ds : List Derivation, rewrittenAll g ds = ds.map (rewritten g)
  | [] => rfl
  | d :: ds => by rw [rewrittenAll, rewrittenAll_eq_map g ds, List.map_cons]

mutual

/-- Without transformations there is nothing to rewrite. -/
theorem rewritten_eq_parseTree {g : Grammar} (h : ∀ rule, g.transform? rule = none) :
    ∀ d : Derivation, rewritten g d = parseTree g d
  | leaf _ _ _ => rfl
  | node rule _ children => by
    rw [rewritten, parseTree, h rule, rewrittenAll_eq_parseTrees h children]

theorem rewrittenAll_eq_parseTrees {g : Grammar} (h : ∀ rule, g.transform? rule = none) :
    ∀ ds : List Derivation, rewrittenAll g ds = parseTrees g ds
  | [] => rfl
  | d :: ds => by
    rw [rewrittenAll, parseTrees, rewritten_eq_parseTree h d, rewrittenAll_eq_parseTrees h ds]

end

theorem tree_eq_parseTree {g : Grammar} (h : ∀ rule, g.transform? rule = none) (kind : TreeKind)
    (d : Derivation) : d.tree g kind = d.parseTree g :=
  match kind with
  | .parseTree => rfl
  | .ast => rewritten_eq_parseTree h d

/-- A node is transformed once its children are. -/
theorem tree_node (g : Grammar) (kind : TreeKind) (rule : RuleId) (ident : Option String)
    (ds : List Derivation) : (node rule ident ds).tree g kind =
      Tree.transformed g kind rule ⟨g.ruleName rule, "", ident.getD "", ds.map (tree g kind),
        none⟩ := by
  cases kind with
  | parseTree => rw [tree, parseTree, parseTrees_eq_map, Tree.transformed_parseTree]
  | ast =>
    rw [tree, rewritten, rewrittenAll_eq_map, Tree.transformed.eq_def]
    cases g.transform? rule <;> rfl

end Derivation

namespace Path

variable {graph : Graph} {g : Grammar} {els inner : List PathElement} {ds ds' : List Derivation}

/-- What elements of a path derive, which come in the order of the path: a leaf for each slot that
took a token, and a node for all that lies between the start of a rule instance and its end. -/
inductive Derives (graph : Graph) : List PathElement → List Derivation → Prop
  | nil : Derives graph [] []
  /-- A slot that took a token. -/
  | taken {n : NodeId} {token : Token} {type : TokenType} {ident : Option String}
      {hook : Option Hook} {els : List PathElement}
      {ds : List Derivation} : graph.kind n = .slot type ident hook →
      Derives graph els ds → Derives graph (⟨n, some token⟩ :: els) (.leaf type ident token :: ds)
  /-- A node that is no boundary of a rule and took no token. -/
  | passed {n : NodeId} {els : List PathElement} {ds : List Derivation} :
      (graph.kind n).startedRule? = none → (graph.kind n).isRuleEnd = false → Derives graph els ds →
      Derives graph (⟨n, none⟩ :: els) ds
  /-- A nested instance, from its start to its own end. -/
  | nested {start stop : NodeId} {rule : RuleId} {ident ident' : Option String}
      {inner els : List PathElement}
      {ds ds' : List Derivation} : graph.kind start = .ruleStart rule ident stop →
      graph.kind stop = .ruleEnd rule ident' → Derives graph inner ds → Derives graph els ds' →
      Derives graph (⟨start, none⟩ :: inner ++ ⟨stop, none⟩ :: els) (.node rule ident ds :: ds')

namespace Derives

theorem append (h : Derives graph inner ds) (h' : Derives graph els ds') :
    Derives graph (inner ++ els) (ds ++ ds') := by
  induction h with
  | nil => exact h'
  | taken hk _ ih => exact .taken hk ih
  | passed hstart hend _ ih => exact .passed hstart hend ih
  | nested hstart hstop hinner _ _ ih =>
    rw [List.append_assoc, List.cons_append]
    exact .nested hstart hstop hinner ih

/-- Elements that derive something open and close instances of their own only. -/
theorem openEnds?_append (h : Derives graph els ds) (rest : List PathElement) :
    openEnds? graph (els.reverse ++ rest) = openEnds? graph rest := by
  induction h generalizing rest with
  | nil => rfl
  | taken hk _ ih =>
    rw [List.reverse_cons, List.append_assoc, ih, List.singleton_append, openEnds?]
    simp only [hk, Option.bind_fun_some]
  | @passed n els ds hstart hend _ ih =>
    rw [List.reverse_cons, List.append_assoc, ih, List.singleton_append, openEnds?]
    cases hk : graph.kind n with
    | ruleStart => rw [hk] at hstart; cases hstart
    | ruleEnd => rw [hk] at hend; cases hend
    | slot | junction | gate | switch => simp only [Option.bind_fun_some]
  | @nested start stop rule ident ident' inner els ds ds' hstart hstop _ _ ihinner ih =>
    rw [List.reverse_append, List.reverse_cons, List.append_assoc, List.append_assoc, ih,
      List.singleton_append, openEnds?, List.reverse_cons, List.append_assoc, ihinner,
      List.singleton_append, openEnds?, Option.bind_assoc]
    simp only [hstart, hstop, Option.bind_some, if_true, Option.bind_fun_some]

/-- Folding the elements adds the trees of what they derive to the innermost open node. -/
theorem reduceFrom_append (kind : TreeKind) (h : Derives graph els ds) (rest : List PathElement)
    (t : Tree) (outer : List Tree) : Tree.reduceFrom g graph kind (els ++ rest) (t :: outer) =
      Tree.reduceFrom g graph kind rest
      ({ t with children := t.children ++ ds.map (·.tree g kind) } :: outer) := by
  induction h generalizing rest t outer with
  | nil =>
    obtain ⟨name, text, id, children, token⟩ := t
    simp
  | taken hk _ ih =>
    rw [List.cons_append, Tree.reduceFrom]
    simp only [hk]
    rw [ih]
    simp [Tree.addChild]
  | @passed n els ds hstart hend _ ih =>
    rw [List.cons_append, Tree.reduceFrom]
    cases hk : graph.kind n with
    | ruleStart => rw [hk] at hstart; cases hstart
    | ruleEnd => rw [hk] at hend; cases hend
    | slot | junction | gate | switch => exact ih rest t outer
  | @nested start stop rule ident ident' inner els ds ds' hstart hstop _ _ ihinner ih =>
    rw [List.append_assoc, List.cons_append, List.cons_append, Tree.reduceFrom]
    simp only [hstart]
    rw [ihinner, Tree.reduceFrom]
    simp only [hstop]
    rw [ih, List.map_cons, Derivation.tree_node]
    simp [Tree.addChild]

end Derives

/-! ## From brackets to instances -/

/-- Elements, the tip first, on which the instances with the given ends are open, the
innermost first: each was started, and the elements behind its start are of itself or of
instances that are closed again. -/
inductive Open (graph : Graph) : List PathElement → List NodeId → Prop
  | closed {els : List PathElement} {ds : List Derivation} : Derives graph els.reverse ds →
      Open graph els []
  | within {start stop : NodeId} {rule : RuleId} {ident ident' : Option String}
      {inner els : List PathElement} {ds : List Derivation}
      {stops : List NodeId} : graph.kind start = .ruleStart rule ident stop →
      graph.kind stop = .ruleEnd rule ident' → Derives graph inner.reverse ds →
      Open graph els stops → Open graph (inner ++ ⟨start, none⟩ :: els) (stop :: stops)

namespace Open

variable {e : PathElement} {stops : List NodeId}

/-- Elements that derive something leave open what is open. -/
theorem append_derives (h : Open graph els stops) (hinner : Derives graph inner.reverse ds) :
    Open graph (inner ++ els) stops := by
  cases h with
  | closed hels => exact .closed (by rw [List.reverse_append]; exact hels.append hinner)
  | within hstart hstop hels houter =>
    rw [← List.append_assoc]
    exact .within hstart hstop (by rw [List.reverse_append]; exact hels.append hinner) houter

theorem cons_derives (h : Open graph els stops) (he : Derives graph [e] ds) :
    Open graph (e :: els) stops := by
  rw [← List.singleton_append]
  exact h.append_derives he

/-- The end of the innermost instance closes it. -/
theorem close {stop : NodeId} (h : Open graph els (stop :: stops)) :
    Open graph (⟨stop, none⟩ :: els) stops := by
  cases h with
  | @within start _ rule ident ident' inner els ds stops hstart hstop hinner houter =>
    have hnode := Derives.nested hstart hstop hinner .nil
    have hopen : Open graph (⟨stop, none⟩ :: (inner ++ [⟨start, none⟩]) ++ els) stops :=
      houter.append_derives (by simpa using hnode)
    simpa using hopen

end Open

/-- A rule start names an end of the same rule. -/
def Ends (graph : Graph) (n : NodeId) : Prop :=
  ∀ rule ident stop, graph.kind n = .ruleStart rule ident stop →
    ∃ ident', graph.kind stop = .ruleEnd rule ident'

/-- Where the ends match their starts, the elements between are instances within one another. -/
theorem open_of_openEnds? {stops : List NodeId} (hends : ∀ e ∈ els, Ends graph e.node)
    (hslots : ∀ e ∈ els, e.token.isSome = true → (graph.kind e.node).isSlot = true)
    (h : openEnds? graph els = some stops) : Open graph els stops := by
  induction els generalizing stops with
  | nil =>
    obtain rfl := Option.some.inj h
    exact .closed .nil
  | cons e els ih =>
    rw [openEnds?] at h
    obtain ⟨ends, hrest, hstep⟩ := Option.bind_eq_some_iff.mp h
    have hopen := ih (fun e he => hends e (List.mem_cons_of_mem _ he))
      (fun e he => hslots e (List.mem_cons_of_mem _ he)) hrest
    have hslot := hslots e List.mem_cons_self
    obtain ⟨n, token⟩ := e
    cases hk : graph.kind n with
    | ruleStart rule ident stop =>
      simp only [hk] at hstep hslot
      obtain rfl := Option.some.inj hstep
      obtain ⟨ident', hstop⟩ := hends _ List.mem_cons_self rule ident stop hk
      obtain rfl : token = none := by simpa [NodeKind.isSlot] using hslot
      rw [← List.nil_append (_ :: els)]
      exact .within hk hstop .nil hopen
    | ruleEnd rule ident =>
      simp only [hk] at hstep hslot
      obtain rfl : token = none := by simpa [NodeKind.isSlot] using hslot
      cases ends with
      | nil => cases hstep
      | cons stop ends =>
        simp only [Option.ite_none_right_eq_some, Option.some.injEq] at hstep
        obtain ⟨rfl, rfl⟩ := hstep
        exact hopen.close
    | slot type ident hook =>
      simp only [hk] at hstep
      obtain rfl := Option.some.inj hstep
      cases token with
      | none => exact hopen.cons_derives (.passed (by rw [hk]; rfl) (by rw [hk]; rfl) .nil)
      | some token => exact hopen.cons_derives (.taken hk .nil)
    | junction | gate | switch =>
      simp only [hk] at hstep hslot
      obtain rfl := Option.some.inj hstep
      obtain rfl : token = none := by simpa [NodeKind.isSlot] using hslot
      exact hopen.cons_derives (.passed (by rw [hk]; rfl) (by rw [hk]; rfl) .nil)

/-! ## Complete paths -/

/-- A path, the tip first, from the start of the root rule to its end, along which the rule
instances open and close in turn; the instance of the root rule is the one that is open
until the last element. -/
structure Complete (graph : Graph) (g : Grammar) (els : List PathElement) : Prop where
  base : .ofGrammar g ≤ graph
  first : els.getLast?.map (·.node) = some Graph.root
  last : els.head?.map (·.node) = some Graph.rootEnd
  closed : openEnds? graph els = some []
  /-- No instance is open any more only behind the last element. -/
  within : ∀ e rest, e :: rest <:+ els → openEnds? graph (e :: rest) = some [] → e :: rest = els
  ends : ∀ e ∈ els, Ends graph e.node
  /-- Only slots take tokens. -/
  slots : ∀ e ∈ els, e.token.isSome = true → (graph.kind e.node).isSlot = true

namespace Complete

/-- Between the two ends of the root rule lie its own slots and nested instances. -/
theorem exists_derives (h : Complete graph g els) : ∃ inner ds,
    els.reverse = ⟨Graph.root, none⟩ :: inner ++ [⟨Graph.rootEnd, none⟩] ∧
    Derives graph inner ds := by
  have hroot := Graph.kind_root h.base
  have hfirst := h.first
  rw [← List.head?_reverse] at hfirst
  obtain ⟨ds, hds⟩ : ∃ ds, Derives graph els.reverse ds := by
    cases open_of_openEnds? h.ends h.slots h.closed with
    | closed hds => exact ⟨_, hds⟩
  generalize hels : els.reverse = path at hds hfirst
  cases hds with
  | nil => exact absurd hfirst nofun
  | taken hk =>
    obtain rfl := Option.some.inj hfirst
    exact absurd (hk.symm.trans hroot) nofun
  | passed hstart =>
    obtain rfl := Option.some.inj hfirst
    rw [hroot] at hstart
    exact absurd hstart nofun
  | @nested start stop rule ident ident' inner behind ds ds' hstart hstop hinner =>
    obtain rfl := Option.some.inj hfirst
    obtain ⟨rfl, rfl, rfl⟩ := NodeKind.ruleStart.inj (hstart.symm.trans hroot)
    refine ⟨inner, ds, ?_, hinner⟩
    -- The path ends where the instance of the root rule does.
    have hclosed : openEnds? graph (⟨Graph.rootEnd, none⟩ ::
        (inner.reverse ++ [⟨Graph.root, none⟩])) = some [] := by
      rw [openEnds?, hinner.openEnds?_append]
      simp only [openEnds?, hstart, hstop, Option.bind_some, if_true]
    have hwhole :=
      h.within _ _ ⟨behind.reverse, by rw [← List.reverse_reverse els, hels]; simp⟩ hclosed
    rw [← hels, ← hwhole]
    simp

end Complete

/-- Between the two ends of the root rule the fold collects what the instance of the root rule
derives. -/
theorem Derives.reduce {path : Path} (h : Derives graph inner ds) (hbase : .ofGrammar g ≤ graph)
    (hpath : path.toList = ⟨Graph.root, none⟩ :: inner ++ [⟨Graph.rootEnd, none⟩])
    (kind : TreeKind) :
    Tree.reduce g graph kind path = (Derivation.node g.root g.ident ds).tree g kind := by
  rw [Tree.reduce, hpath, List.cons_append, Tree.reduceFrom]
  simp only [Graph.kind_root hbase]
  rw [h.reduceFrom_append, Tree.reduceFrom]
  simp only [Graph.kind_rootEnd hbase]
  rw [Derivation.tree_node]
  rfl

/-- The fold over a complete path gives the tree of what the instance of the root rule derives. -/
theorem Complete.reduce_eq {path : Path} (h : Complete graph g path.elements) : ∃ inner ds,
    path.toList = ⟨Graph.root, none⟩ :: inner ++ [⟨Graph.rootEnd, none⟩] ∧ Derives graph inner ds ∧
      Tree.reduce g graph .parseTree path = (Derivation.node g.root g.ident ds).parseTree g ∧
      Tree.reduce g graph .ast path = (Derivation.node g.root g.ident ds).rewritten g := by
  obtain ⟨inner, ds, hpath, hds⟩ := h.exists_derives
  exact ⟨inner, ds, hpath, hds, hds.reduce h.base hpath .parseTree, hds.reduce h.base hpath .ast⟩

namespace Placed

variable {frames : List Frame} {e : PathElement}

theorem exists_of_mem (h : Placed graph g els frames) (he : e ∈ els) :
    ∃ rest fs, Placed graph g (e :: rest) fs := by
  induction h with
  | root hbase =>
    obtain rfl := List.mem_singleton.mp he
    exact ⟨_, _, .root hbase⟩
  | inside hplaced htargets hholds hend hslot ih =>
    rcases List.mem_cons.mp he with rfl | he
    · exact ⟨_, _, .inside hplaced htargets hholds hend hslot⟩
    · exact ih he
  | leave hplaced htargets ih =>
    rcases List.mem_cons.mp he with rfl | he
    · exact ⟨_, _, .leave hplaced htargets⟩
    · exact ih he
  | enter hplaced hk hentry hnested ih =>
    rcases List.mem_cons.mp he with rfl | he
    · exact ⟨_, _, .enter hplaced hk hentry hnested⟩
    · exact ih he

theorem slot_of_isSome (h : Placed graph g (e :: els) frames) (htoken : e.token.isSome = true) :
    (graph.kind e.node).isSlot = true := by
  cases h with
  | inside _ _ _ _ hslot => exact hslot htoken
  | root | leave | enter => exact absurd htoken nofun

theorem getLast?_eq (h : Placed graph g els frames) :
    els.getLast?.map (·.node) = some Graph.root := by
  induction h with
  | root => rfl
  | inside _ _ _ _ _ ih | leave _ _ ih | enter _ _ _ _ ih => rwa [List.getLast?_cons_cons]

/-- Rule instances are open in front of every element. -/
theorem openAt_tail_ne_nil {parent : PathElement} (h : Placed graph g (e :: parent :: els) frames) :
    ∃ fs, Placed graph g (parent :: els) fs ∧ openAt graph (parent :: els) fs ≠ [] := by
  cases h with
  | inside hplaced htargets => exact ⟨_, hplaced, hplaced.openAt_ne_nil_of_mem_targets htargets⟩
  | leave hplaced htargets => exact ⟨_, hplaced, hplaced.openAt_ne_nil_of_mem_targets htargets⟩
  | enter hplaced hk =>
    refine ⟨_, hplaced, ?_⟩
    rw [openAt_cons, hk]
    exact List.cons_ne_nil _ _

/-- No instance is open any more only behind the last element. -/
theorem eq_of_suffix {rest : List PathElement} (h : Placed graph g els frames)
    (hsuffix : e :: rest <:+ els) (hclosed : openEnds? graph (e :: rest) = some []) :
    e :: rest = els := by
  induction els generalizing frames with
  | nil => exact absurd (List.suffix_nil.mp hsuffix) (List.cons_ne_nil _ _)
  | cons tip els ih =>
    rcases List.suffix_cons_iff.mp hsuffix with heq | hsuffix
    · exact heq
    · obtain ⟨parent, els, rfl⟩ := List.exists_cons_of_ne_nil
        (List.ne_nil_of_mem (hsuffix.subset List.mem_cons_self))
      obtain ⟨fs, hplaced, hopen⟩ := h.openAt_tail_ne_nil
      rw [ih hplaced hsuffix, hplaced.openEnds?_eq] at hclosed
      exact absurd (Option.some.inj hclosed) hopen

/-- A path of the search that stands on the end of the root rule is complete. -/
theorem complete (h : Placed graph g (e :: els) frames) (hroot : e.node = Graph.rootEnd) :
    Complete graph g (e :: els) where
  base := h.base_le
  first := h.getLast?_eq
  last := by rw [List.head?_cons, Option.map_some, hroot]
  closed := by rw [h.openEnds?_eq, h.openAt_eq_nil.mpr hroot]
  within _ _ hsuffix hclosed := h.eq_of_suffix hsuffix hclosed
  ends e' he' := by
    intro rule ident stop hk
    obtain ⟨rest, fs, hplaced⟩ := h.exists_of_mem he'
    obtain ⟨f, fs, rfl, hholds⟩ := hplaced.holds_tip
    exact ⟨ident, (hplaced.nested.region.stops _ rule ident stop hholds.1 hholds.2 hk).2.2⟩
  slots e' he' htoken := by
    obtain ⟨rest, fs, hplaced⟩ := h.exists_of_mem he'
    exact hplaced.slot_of_isSome htoken

end Placed

end Path

namespace Parser

variable {p : Parser} {text : List Char} {source : Option String} {fuel : Nat} {s : Search}

/-- The path of a search that succeeds on the end of the root rule is complete. -/
theorem complete_of_searchWithin (hg : p.grammar.EndsApart)
    (h : p.searchWithin fuel text source = some (.ok s))
    (htip : s.path.tip?.map (·.node) = some Graph.rootEnd) :
    Path.Complete s.graph p.grammar s.path.elements := by
  obtain ⟨tip, ht, htip⟩ := Option.map_eq_some_iff.mp htip
  obtain ⟨els, hels⟩ := Search.exists_rest ht
  obtain ⟨frames, hplaced⟩ := placed_of_searchWithin hg h
  rw [hels] at hplaced ⊢
  exact hplaced.complete htip

end Parser

namespace Sample.Loops

/-- Two loops: the transformation of their rule renames their nodes and replaces the leaves. -/
theorem reduce_eq_twoLoops : ∃ (s : Search) (inner : List PathElement) (ds : List Derivation),
    (Parser.ofGrammar grammar).searchWithin 100 "foreach x in xs {} forall ys {}".toList none =
      some (.ok s) ∧
    Path.Complete s.graph grammar s.path.elements ∧
    s.path.toList = ⟨Graph.root, none⟩ :: inner ++ [⟨Graph.rootEnd, none⟩] ∧
    Path.Derives s.graph inner ds ∧
    Tree.reduce grammar s.graph .parseTree s.path = (Derivation.node 1 none ds).parseTree grammar ∧
    Tree.reduce grammar s.graph .ast s.path = (Derivation.node 1 none ds).rewritten grammar ∧
    (Tree.reduce grammar s.graph .ast s.path).sameShape
      ⟨"loops", "", "",
        [⟨"for", "", "", [.plain "list-var" "xs", .plain "element-var" "x"], none⟩,
          ⟨"for", "", "", [.plain "list-var" "ys"], none⟩], none⟩ = true := by
  have hok : ((Parser.ofGrammar grammar).searchWithin 100 "foreach x in xs {} forall ys {}".toList
      none).any (·.toOption.any fun s => s.path.tip?.map (·.node) == some Graph.rootEnd &&
        (Tree.reduce grammar s.graph .ast s.path).sameShape
          ⟨"loops", "", "",
            [⟨"for", "", "", [.plain "list-var" "xs", .plain "element-var" "x"], none⟩,
              ⟨"for", "", "", [.plain "list-var" "ys"], none⟩], none⟩) = true := by decide +kernel
  obtain ⟨s, hsearch, hs⟩ := Parser.exists_ok_of_any hok
  rw [Bool.and_eq_true, beq_iff_eq] at hs
  have hcomplete := Parser.complete_of_searchWithin endsApart_grammar hsearch hs.1
  obtain ⟨inner, ds, hpath, hds, hparse, hast⟩ := hcomplete.reduce_eq
  exact ⟨s, inner, ds, hsearch, hcomplete, hpath, hds, hparse, hast, hs.2⟩

end Sample.Loops

end GrammarGraph
