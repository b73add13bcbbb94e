import GrammarGraph.Proofs.Tracing

/-!
# Nothing else is parsed

Of a path through instances of the two bodies it can be told what has been read at each place of it
(`Sample.Commands.Tracks.stage`): a script, and in a command what its nodes so far have read.  So a
path that is found has the tokens of a script.  Together with what the search reads the texts that
are parsed are those of scripts (`Sample.Commands.parses_iff_script`).
-/

namespace GrammarGraph

/-- Settings do not change which types the lexer of a grammar has. -/
theorem Parser.knows_withSettings (g : Grammar) (settings : Settings) :
    (Parser.withSettings g settings).lexer.Knows g.types.types := by
  obtain ⟨line, block, full, tabSize, tree⟩ := settings
  refine Lexer.Knows.setTabSize ?_ tabSize
  have hknows := Lexer.knows_ofTypes g.types.types
  cases line <;> cases block
  · exact hknows
  · exact hknows.setBlockComment _ _
  · exact hknows.setLineComment _
  · exact (hknows.setLineComment _).setBlockComment _ _

namespace Sample.Commands

open GrammarGraph.Search GrammarGraph.Path

variable {graph : Graph} {els : List PathElement} {token : Option Token} {base lo i j n : Nat}

/-! ## What has been read -/

/-- The number of the type of the token that an element of the node takes. -/
def typeIds : NodeKind → List Nat
  | .slot type _ _ => [type.id]
  | _ => []

/-- What an instance of a command may have read where the path stands on one of its nodes: whether
the gate has been passed, and the numbers of the types of the tokens. -/
def readings : Nat → List (Bool × List Nat)
  | 0 | 14 | 4 | 8 | 11 => [(false, [])]
  | 10 => [(true, [])]
  | 2 => [(false, [3])]
  | 3 | 5 => [(false, [3, 1])]
  | 6 => [(false, [4])]
  | 7 | 9 => [(false, [4, 1])]
  | 12 => [(true, [5])]
  | 13 => [(false, [3, 1]), (false, [4, 1]), (true, [5])]
  | 15 | 1 => [(false, [3, 1, 6]), (false, [4, 1, 6]), (true, [5, 6])]
  | _ => []

/-- From node to node the table has what is read by then. -/
theorem readings_closed : ∀ i < 16, ∀ j ∈ commandBody.template.targets i, ∀ r ∈ readings i,
    (r.1 || j == 10, r.2 ++ typeIds (commandBody.template.kind j)) ∈ readings j ∧
    (j = 10 → i = 11) := by
  rw [template_command]
  decide +kernel

/-- The tokens have the types. -/
def HaveTypes (ids : List Nat) (tokens : List Token) : Prop :=
  List.Forall₂ (fun id t => t.hasType id = true) ids tokens

theorem haveTypes_of_matched {k : Nat} {kind : NodeKind} (hk : graph.kind n = kind.moved k)
    (h : Matched graph ⟨n, token⟩) : HaveTypes (typeIds kind) token.toList := by
  unfold Matched at h
  rw [hk] at h
  cases kind with
  | slot type ident hook =>
    obtain ⟨t, rfl, ht⟩ := h
    exact .cons ht .nil
  | _ =>
    obtain rfl : token = none := h
    exact .nil

/-- At the exit a statement has been read. -/
theorem exists_statement {strict : Bool} {r : Bool × List Nat} {tokens : List Token}
    (hr : r ∈ readings 1) (hallowed : r.1 = true → strict = false) (h : HaveTypes r.2 tokens) :
    ∃ s : Statement, s.IsTyped ∧ s.tokens = tokens ∧
      (strict = true → s.action.isUnchecked = false) := by
  simp only [readings, List.mem_cons, List.not_mem_nil, or_false] at hr
  rcases hr with rfl | rfl | rfl
  · obtain _ | ⟨hword, _ | ⟨hname, _ | ⟨hstop, ⟨⟩⟩⟩⟩ := h
    exact ⟨⟨.naming .letWord _ _, _⟩, ⟨⟨hword, hname⟩, hstop⟩, rfl, fun _ => rfl⟩
  · obtain _ | ⟨hword, _ | ⟨hname, _ | ⟨hstop, ⟨⟩⟩⟩⟩ := h
    exact ⟨⟨.naming .printWord _ _, _⟩, ⟨⟨hword, hname⟩, hstop⟩, rfl, fun _ => rfl⟩
  · obtain _ | ⟨hword, _ | ⟨hstop, ⟨⟩⟩⟩ := h
    exact ⟨⟨.unchecked _, _⟩, ⟨hword, hstop⟩, rfl,
      fun hs => absurd (hs.symm.trans (hallowed rfl)) nofun⟩

/-- The tokens on the path are those of the script, and the variable tells whether it is strict. -/
structure Settled (graph : Graph) (els : List PathElement) (script : Script) : Prop where
  wellFormed : script.IsWellFormed
  tokens : tokensOf els = script.tokens
  lookup : Scope.lookup "strict" 0 (replay graph grammar els).scopes = some (.bool script.isStrict)

/-- Behind the script a command has read these tokens up to its node `i`.  The variable is seen with
the scope of the command, and with that hidden. -/
structure Midway (graph : Graph) (els : List PathElement) (i : Nat) (script : Script)
    (read : List Token) : Prop where
  wellFormed : script.IsWellFormed
  tokens : tokensOf els = script.tokens ++ read
  lookup : ∀ hidden ≤ 1, Scope.lookup "strict" hidden (replay graph grammar els).scopes =
    some (.bool script.isStrict)
  reading : ∃ r ∈ readings i, (r.1 = true → script.isStrict = false) ∧ HaveTypes r.2 read

/-- What has been read where a path is at the place. -/
def Stage (graph : Graph) (els : List PathElement) : Place → Prop
  | .root => tokensOf els = []
  | .script _ i => if i = 0 ∨ i = 3 then tokensOf els = [] else ∃ script, Settled graph els script
  | .command _ _ i => ∃ script read, Midway graph els i script read
  | .finish => ∃ script : Script, script.IsWellFormed ∧ tokensOf els = script.tokens

theorem token_eq_none (hslot : (graph.kind n).isSlot = false) (h : Matched graph ⟨n, token⟩) :
    token = none := by
  unfold Matched at h
  split at h
  · next hk =>
    rw [hk] at hslot
    cases hslot
  · exact h

/-- In front of all statements the script is the word alone. -/
theorem Script.isWellFormed_front {word : Option Token}
    (h : ∀ t ∈ word, t.hasType Commands.strict.id = true) : Script.IsWellFormed ⟨word, []⟩ where
  strict := h
  typed _ hs := absurd hs List.not_mem_nil
  allowed _ _ hs := absurd hs List.not_mem_nil

/-- A statement makes a longer script. -/
theorem Script.IsWellFormed.concat {script : Script} {s : Statement} (h : script.IsWellFormed)
    (hs : s.IsTyped) (hallowed : script.isStrict = true → s.action.isUnchecked = false) :
    Script.IsWellFormed ⟨script.strictWord, script.statements ++ [s]⟩ where
  strict := h.strict
  typed := List.forall_mem_append.mpr ⟨h.typed, List.forall_mem_singleton.mpr hs⟩
  allowed hstrict :=
    List.forall_mem_append.mpr ⟨h.allowed hstrict, List.forall_mem_singleton.mpr (hallowed hstrict)⟩

theorem Script.tokens_concat (script : Script) (s : Statement) :
    Script.tokens ⟨script.strictWord, script.statements ++ [s]⟩ = script.tokens ++ s.tokens := by
  simp [Script.tokens]

namespace Stage

variable {place : Place} {next : Option Token}

/-- One more node of a command. -/
theorem command (h : Stage graph els (.command base lo i))
    (htracks : Tracks graph els (.command base lo i)) (hj : j ∈ commandBody.template.targets i)
    (hlegal : Legal graph grammar next (⟨lo + j, token⟩ :: els))
    (hmatched : Matched graph ⟨lo + j, token⟩) :
    Stage graph (⟨lo + j, token⟩ :: els) (.command base lo j) := by
  obtain ⟨script, read, hwell, htokens, hlookup, r, hr, hgate, htypes⟩ := h
  obtain ⟨hi, hholds, -⟩ := htracks.wired
  obtain ⟨_, rest, rfl⟩ := htracks.tip
  have hlt := lt_of_mem_targets_command hj
  have hk := hholds.kind_eq hlt
  obtain ⟨hclosed, hback⟩ := readings_closed i hi j hj r hr
  have hkeeps : ∀ j < 16, (commandBody.template.kind j).keepsScopes = true := by decide +kernel
  refine ⟨script, read ++ token.toList, hwell, ?_, fun hidden hhidden => ?_, _, hclosed,
    fun hpassed => ?_, ?_⟩
  · rw [tokensOf_cons, htokens, List.append_assoc]
  · rw [scopes_replay_cons (by rw [hk, NodeKind.keepsScopes_moved, hkeeps j hlt]),
      hlookup hidden hhidden]
  · rw [Bool.or_eq_true] at hpassed
    rcases hpassed with hpassed | hpassed
    · exact hgate hpassed
    · -- The gate was passed, so it held.
      obtain rfl : j = 10 := eq_of_beq hpassed
      obtain rfl := hback rfl
      have hgateKind : graph.kind (lo + 11) = .gate lenient (lo + 10) := hholds.kind_eq (by decide)
      have hlenient := (hlegal.1.gate hgateKind).1
      simp only [lenient, Context.var?, var?, hlookup 0 (Nat.zero_le 1)] at hlenient
      simpa [Value.bool?] using hlenient
  · exact List.rel_append htypes (haveTypes_of_matched hk hmatched)

/-- The ways from node to node of the script: up to the word, with it or past it, and from then
on. -/
theorem ways_script : ∀ i < 9, ∀ j ∈ scriptBody.template.targets i,
    i = 0 ∧ j = 3 ∨ i = 3 ∧ j = 2 ∨ i = 3 ∧ j = 4 ∨
      (¬(i = 0 ∨ i = 3) ∧ ¬(j = 0 ∨ j = 3) ∧ (scriptBody.template.kind j).isSlot = false ∧
        ((scriptBody.template.kind j).keepsScopes = true ∨ j = 6)) := by
  rw [template_script]
  decide +kernel

/-- The word makes the script strict: its hook sets the variable. -/
theorem settled_strict (htracks : Tracks graph els (.script base 3))
    (hle : .ofGrammar grammar ≤ graph) (htokens : tokensOf els = [])
    (hmatched : Matched graph ⟨base + 2, token⟩) :
    ∃ script, Settled graph (⟨base + 2, token⟩ :: els) script := by
  have hslot : graph.kind (base + 2) = .slot strict none (some setStrict) :=
    htracks.wired.2.kind_eq (i := 2) (by decide)
  obtain ⟨t, rfl, ht⟩ : ∃ t, token = some t ∧ t.hasType strict.id = true := by
    unfold Matched at hmatched
    rwa [hslot] at hmatched
  refine ⟨⟨some t, []⟩, Script.isWellFormed_front ?_, ?_, ?_⟩
  · rintro u ⟨⟩
    exact ht
  · rw [tokensOf_cons, htokens]
    rfl
  · rw [replay_cons]
    simp only [Path.push, hslot, htracks.scopes_of_isFresh hle rfl]
    rfl

/-- Without the word the script is not strict. -/
theorem settled_lenient (htracks : Tracks graph els (.script base 3))
    (hle : .ofGrammar grammar ≤ graph) (htokens : tokensOf els = [])
    (hmatched : Matched graph ⟨base + 4, token⟩) :
    ∃ script, Settled graph (⟨base + 4, token⟩ :: els) script := by
  have hk := htracks.wired.2.kind_eq (i := 4) (by decide)
  obtain rfl := token_eq_none (by rw [hk]; rfl) hmatched
  refine ⟨⟨none, []⟩, Script.isWellFormed_front fun _ h => absurd h (Option.not_mem_none _), ?_, ?_⟩
  · rw [tokensOf_cons, htokens]
    rfl
  · rw [scopes_replay_cons (by rw [hk]; rfl), htracks.scopes_of_isFresh hle rfl]
    rfl

/-- One more node of the script. -/
theorem script (h : Stage graph els (.script base i)) (htracks : Tracks graph els (.script base i))
    (hle : .ofGrammar grammar ≤ graph) (hj : j ∈ scriptBody.template.targets i)
    (hmatched : Matched graph ⟨base + j, token⟩) :
    Stage graph (⟨base + j, token⟩ :: els) (.script base j) := by
  obtain ⟨hi, hholds⟩ := htracks.wired
  have hk := hholds.kind_eq (lt_of_mem_targets_script hj)
  rcases ways_script i hi j hj with ⟨rfl, rfl⟩ | ⟨rfl, rfl⟩ | ⟨rfl, rfl⟩ | ⟨hi', hj', hslot, hkeeps⟩
  · obtain rfl := token_eq_none (by rw [hk]; rfl) hmatched
    have htokens : tokensOf els = [] := h
    show tokensOf (⟨base + 3, none⟩ :: els) = []
    rw [tokensOf_cons, htokens]
    rfl
  · exact settled_strict htracks hle h hmatched
  · exact settled_lenient htracks hle h hmatched
  · obtain rfl := token_eq_none (by rw [hk, NodeKind.isSlot_moved, hslot]) hmatched
    rw [Stage, if_neg hi'] at h
    rw [Stage, if_neg hj']
    obtain ⟨script, hwell, htokens, hlookup⟩ := h
    refine ⟨script, hwell, ?_, ?_⟩
    · rw [tokensOf_cons, htokens]
      exact List.append_nil _
    · rcases hkeeps with hkeeps | rfl
      · rw [scopes_replay_cons (by rw [hk, NodeKind.keepsScopes_moved, hkeeps]), hlookup]
      · rw [replay_cons]
        simp only [Path.push, show graph.kind (base + 6) = .ruleStart 0 none (base + 5) from hk,
          Scope.lookup]
        exact hlookup

/-- Where a command is entered its scope hides nothing. -/
theorem call (h : Stage graph els (.script base 6)) (htracks : Tracks graph els (.script base 6))
    (hholds : graph.Holds lo commandBody.template (base + 5))
    (hmatched : Matched graph ⟨lo + 0, token⟩) :
    Stage graph (⟨lo + 0, token⟩ :: els) (.command base lo 0) := by
  obtain ⟨script, hwell, htokens, hlookup⟩ := h
  obtain ⟨before, rest, rfl⟩ := htracks.tip
  have hk := hholds.kind_eq (i := 0) (by decide)
  obtain rfl := token_eq_none (by rw [hk]; rfl) hmatched
  have hstart : graph.kind (Place.script base 6).node = .ruleStart 0 none (base + 5) :=
    htracks.wired.2.kind_eq (i := 6) (by decide)
  have hscopes : (replay graph grammar (⟨(Place.script base 6).node, before⟩ :: rest)).scopes =
      .active .empty :: (replay graph grammar rest).scopes := by
    rw [replay_cons]
    simp only [Path.push, hstart]
    rfl
  refine ⟨script, [], hwell, ?_, fun hidden hhidden => ?_, _, List.mem_singleton_self _,
    fun h => absurd h Bool.false_ne_true, .nil⟩
  · rw [tokensOf_cons, htokens]
    rfl
  · rw [scopes_replay_cons (by rw [hk]; rfl), hscopes]
    rw [hscopes, Scope.lookup] at hlookup
    rcases Nat.le_one_iff_eq_zero_or_eq_one.mp hhidden with rfl | rfl
    all_goals
      rw [Scope.lookup]
      exact hlookup

/-- Where a command ends the script has one more statement. -/
theorem leave (h : Stage graph els (.command base lo 1))
    (htracks : Tracks graph els (.command base lo 1)) (hmatched : Matched graph ⟨base + 5, token⟩) :
    Stage graph (⟨base + 5, token⟩ :: els) (.script base 5) := by
  obtain ⟨script, read, hwell, htokens, hlookup, r, hr, hgate, htypes⟩ := h
  obtain ⟨s, hs, rfl, hallowed⟩ := exists_statement hr hgate htypes
  have hend : graph.kind (base + 5) = .ruleEnd 0 none := htracks.wired.2.2.kind_eq (by decide)
  obtain rfl := token_eq_none (by rw [hend]; rfl) hmatched
  refine ⟨_, hwell.concat hs hallowed, ?_, ?_⟩
  · rw [tokensOf_cons, htokens, Script.tokens_concat]
    exact List.append_nil _
  · rw [replay_cons]
    simp only [Path.push, hend, Scope.lookup]
    exact hlookup 1 (le_refl 1)

end Stage

/-- Of a path that can be followed and whose slots have tokens of their types, it can be
told what has been read. -/
theorem Tracks.stage {place : Place} {next : Option Token} (h : Tracks graph els place)
    (hle : .ofGrammar grammar ≤ graph) (hlegal : Legal graph grammar next els)
    (hmatched : ∀ e ∈ els, Matched graph e) : Stage graph els place := by
  induction h generalizing next with
  | @root token =>
    obtain rfl : token = none :=
      token_eq_none (by rw [Graph.kind_root hle]; rfl) (hmatched _ List.mem_cons_self)
    rfl
  | @enter els base token h hholds ih =>
    obtain ⟨htip, hrest⟩ := List.forall_mem_cons.mp hmatched
    obtain rfl := token_eq_none (by rw [hholds.kind_eq (by decide)]; rfl) htip
    have htokens : tokensOf els = [] := ih (hlegal.parent h.ne_nil) hrest
    show tokensOf (⟨base + 0, none⟩ :: els) = []
    rw [tokensOf_cons, htokens]
    rfl
  | script h hj ih =>
    obtain ⟨htip, hrest⟩ := List.forall_mem_cons.mp hmatched
    exact (ih (hlegal.parent h.ne_nil) hrest).script h hle hj htip
  | call h hholds ih =>
    obtain ⟨htip, hrest⟩ := List.forall_mem_cons.mp hmatched
    exact (ih (hlegal.parent h.ne_nil) hrest).call h hholds htip
  | command h hj ih =>
    obtain ⟨htip, hrest⟩ := List.forall_mem_cons.mp hmatched
    exact (ih (hlegal.parent h.ne_nil) hrest).command h hj hlegal htip
  | leave h ih =>
    obtain ⟨htip, hrest⟩ := List.forall_mem_cons.mp hmatched
    exact (ih (hlegal.parent h.ne_nil) hrest).leave h htip
  | finish h ih =>
    obtain ⟨htip, hrest⟩ := List.forall_mem_cons.mp hmatched
    obtain rfl := token_eq_none (by rw [Graph.kind_rootEnd hle]; rfl) htip
    obtain ⟨script, hwell, htokens, -⟩ := ih (hlegal.parent h.ne_nil) hrest
    refine ⟨script, hwell, ?_⟩
    rw [tokensOf_cons, htokens]
    exact List.append_nil _

/-! ## The texts that are parsed -/

/-- The only end of a rule that leads nowhere is that of the root rule. -/
theorem Tracks.eq_finish {place : Place} (h : Tracks graph els place)
    (hle : .ofGrammar grammar ≤ graph) (hloose : graph.Loose place.node) : place = .finish := by
  have hwired := h.wired
  cases place with
  | root =>
    rw [Graph.Loose, Place.node, Graph.kind_root hle] at hloose
    cases hloose.1
  | script base i =>
    have hend : ∀ i < 9, (scriptBody.template.kind i).isRuleEnd = true → i = 5 := by decide +kernel
    have hrule : (graph.kind (base + i)).isRuleEnd = true := hloose.1
    rw [hwired.2.kind_eq hwired.1, NodeKind.isRuleEnd_moved] at hrule
    obtain rfl := hend i hwired.1 hrule
    have hlink : graph.wired (base + 5) = [base + 7] := hwired.2.wired 5 _ rfl
    rw [Graph.Loose, Place.node, hlink] at hloose
    cases hloose.2
  | command base lo i =>
    have hend : ∀ i < 16, (commandBody.template.kind i).isRuleEnd = false := by decide +kernel
    have hrule : (graph.kind (lo + i)).isRuleEnd = true := hloose.1
    rw [hwired.2.1.kind_eq hwired.1, NodeKind.isRuleEnd_moved, hend i hwired.1] at hrule
    cases hrule
  | finish => rfl

variable {p : Parser} {text : List Char} {source : Option String} {tokens : List Token}

/-- A search that succeeds has read a script. -/
theorem exists_script_of_searchWithin {fuel : Nat} {s : Search} (hg : p.grammar = grammar)
    (h : p.searchWithin fuel text source = some (.ok s)) :
    ∃ script : Script, script.IsWellFormed ∧ script.tokens = s.path.tokens := by
  obtain ⟨g, lx, full, tree⟩ := p
  obtain rfl : g = grammar := hg
  obtain ⟨-, -, hlegal, htip⟩ :=
    Parser.legal_of_searchWithin (hooksRevert_of_grammar rfl text source) h
  obtain ⟨hle, place, htracks⟩ :=
    Parser.keeps_path_of_searchWithin Tracks.keeps ⟨le_refl _, _, .root⟩ h
  obtain ⟨stop, htip', hloose⟩ := Parser.tip_of_searchWithin h
  obtain ⟨token, rest, hels⟩ := htracks.tip
  have hnode : stop = place.node := by
    rw [Path.tip?, hels] at htip'
    exact congrArg PathElement.node (Option.some.inj htip').symm
  obtain rfl := htracks.eq_finish hle (hnode ▸ hloose)
  obtain ⟨script, hscript, htokens⟩ := htracks.stage hle hlegal (matched_of_legal hlegal htip)
  exact ⟨script, hscript, htokens.symm⟩

theorem Script.childrenNamed_tree (script : Script) :
    script.tree.childrenNamed "Command" = script.statements.map (·.tree) := by
  have hfront :
      (script.strictWord.toList.map (Tree.ofToken · "")).filter (·.name == "Command") = [] := by
    cases script.strictWord <;> rfl
  have hall : ∀ s ∈ script.statements.map (·.tree), (s.name == "Command") = true :=
    List.forall_mem_map.mpr fun _ _ => rfl
  rw [Tree.childrenNamed, Script.tree, List.filter_append, hfront, List.filter_eq_self.mpr hall,
    List.nil_append]

/-- The search for a script succeeds, and the path is rewritten to its tree. -/
theorem exists_bound_of_script (settings : Settings) {script : Script}
    (hscript : script.IsWellFormed)
    (hlex : (Parser.withSettings grammar settings).lexer.tokenizeFrom text source =
      .ok script.tokens) :
    ∃ bound, ∀ fuel, bound ≤ fuel →
      (Parser.withSettings grammar settings).parseWithin fuel text source =
        some (.ok script.tree) := by
  have hclassed :=
    Stream.classed_tokenizeFrom (Parser.knows_withSettings grammar settings) declared_types hlex
  obtain ⟨s, htree, bound, hbound⟩ := Parser.searchWithin_of_succeeds
    (p := Parser.withSettings grammar settings) hlex (succeeds_script hscript
      (fun t ht => keyed_of_classedBy (hclassed t ht)) settings.tree settings.fullBacktracking)
  refine ⟨bound, fun fuel hfuel => ?_⟩
  rw [Parser.parseWithin, hbound fuel hfuel]
  exact congrArg (some ∘ Except.ok) htree

/-- Whatever the settings, a text that has tokens is parsed just if these are the
tokens of a script, and then its tree is that of the script: behind the word in front a
node for each statement. -/
theorem parses_iff_script (settings : Settings)
    (hlex : (Parser.withSettings grammar settings).lexer.tokenizeFrom text source = .ok tokens) :
    ∃ bound answer,
      (∀ fuel, bound ≤ fuel →
        (Parser.withSettings grammar settings).parseWithin fuel text source = some answer) ∧
      ((∃ tree, answer = .ok tree) ↔
        ∃ script : Script, script.IsWellFormed ∧ script.tokens = tokens) ∧
      ∀ script : Script, script.IsWellFormed → script.tokens = tokens →
        answer = .ok script.tree ∧
        script.tree.childrenNamed "Command" = script.statements.map (·.tree) := by
  obtain ⟨bound, found, hfound⟩ :=
    Parser.exists_bound (p := .withSettings grammar settings) endsApart_grammar text source
  have hanswer : ∀ fuel, bound ≤ fuel →
      (Parser.withSettings grammar settings).parseWithin fuel text source =
        some (found.map (Parser.withSettings grammar settings).treeOf) := by
    intro fuel hfuel
    rw [Parser.parseWithin, hfound fuel hfuel, Option.map_some]
  have htree : ∀ script : Script, script.IsWellFormed → script.tokens = tokens →
      found.map (Parser.withSettings grammar settings).treeOf = .ok script.tree := by
    rintro script hscript rfl
    obtain ⟨enough, hok⟩ := exists_bound_of_script settings hscript hlex
    exact Option.some.inj
      ((hanswer (max bound enough) (le_max_left _ _)).symm.trans (hok _ (le_max_right _ _)))
  refine ⟨bound, _, hanswer, ⟨?_, ?_⟩,
    fun script hscript htokens => ⟨htree script hscript htokens, script.childrenNamed_tree⟩⟩
  · rintro ⟨tree, htree⟩
    obtain ⟨s, hsearch, -⟩ :=
      Parser.exists_ok_of_map ((hanswer bound (le_refl bound)).trans (congrArg some htree))
    obtain ⟨script, hscript, htokens⟩ := exists_script_of_searchWithin rfl hsearch
    obtain ⟨stream, hpulls, -, -, hend⟩ := Parser.pulls_of_searchWithin hsearch
    have hpath := Parser.tokenizeFrom_of_pulls hpulls hend
    exact ⟨script, hscript, htokens.trans (Except.ok.inj (hpath.symm.trans hlex))⟩
  · rintro ⟨script, hscript, htokens⟩
    exact ⟨_, htree script hscript htokens⟩

def thorough : Settings where
  fullBacktracking := true

/-- With full backtracking, of a script in which a keyword is a name. -/
theorem parses_iff_script_strict :
    ∃ tokens,
      (Parser.withSettings grammar thorough).lexer.tokenizeFrom
        "strict let let; print x;".toList none = .ok tokens ∧
      tokens.map Token.text = ["strict", "let", "let", ";", "print", "x", ";"] ∧
      ∃ bound answer,
        (∀ fuel, bound ≤ fuel →
          (Parser.withSettings grammar thorough).parseWithin fuel
            "strict let let; print x;".toList none = some answer) ∧
        ((∃ tree, answer = .ok tree) ↔
          ∃ script : Script, script.IsWellFormed ∧ script.tokens = tokens) ∧
        ∀ script : Script, script.IsWellFormed → script.tokens = tokens →
          answer = .ok script.tree ∧
          script.tree.childrenNamed "Command" = script.statements.map (·.tree) := by
  have hok : ((Parser.withSettings grammar thorough).lexer.tokenizeFrom
      "strict let let; print x;".toList none).toOption.map (·.map Token.text) =
        some ["strict", "let", "let", ";", "print", "x", ";"] := by decide +kernel
  cases hlex : (Parser.withSettings grammar thorough).lexer.tokenizeFrom
      "strict let let; print x;".toList none with
  | error e =>
    rw [hlex] at hok
    exact absurd hok nofun
  | ok tokens =>
    rw [hlex] at hok
    exact ⟨tokens, rfl, Option.some.inj hok, parses_iff_script thorough hlex⟩

end Sample.Commands

end GrammarGraph
