import GrammarGraph.Proofs.Readings
import GrammarGraph.Proofs.RoundTrip

/-!
# What is accepted as a definition can be read

The tree of a text that the grammar of definitions accepts is the tree of a list of statements,
which are written in the text word by word (`Definition.exists_statements`).  A definition is read
from every such tree, one statement after the other (`Definition.ofTree_of_statements`), and neither
its rules nor the groups and branches in them are empty.  Main statement:
`Definition.exists_ofTree_eq_ok`.
-/

namespace GrammarGraph

open GrammarGraph.Meta

/-! ## Statements in turn -/

/-- What a statement adds to a definition.  Of the comment styles only the first one of a kind
counts. -/
def Statement.addTo (d : Definition) : Statement → Definition
  | lineComment start => { d with lineComment := d.lineComment.or (some start) }
  | blockComment c => { d with blockComment := d.blockComment.or (some c) }
  | fullBacktracking => { d with fullBacktracking := true }
  | token decl _ => { d with tokens := d.tokens ++ [decl] }
  | rule decl => { d with rules := d.rules ++ [decl] }

def Statement.token? : Statement → Option TokenDecl
  | token decl _ => some decl
  | _ => none

def Statement.rule? : Statement → Option RuleDecl
  | rule decl => some decl
  | _ => none

/-- Neither the rule is empty, nor anything in it. -/
def RuleDecl.isFilled (d : RuleDecl) : Bool := !d.branches.isEmpty && Item.branchesFilled d.branches

namespace Definition

/-- Neither rules nor groups nor branches are empty. -/
def isFilled (d : Definition) : Bool := d.rules.all RuleDecl.isFilled

def ofStatements (statements : List Statement) : Definition := statements.foldl Statement.addTo {}

variable {d : Definition} {s : Statement} {statements : List Statement}

/-- A statement is read from its tree. -/
theorem addStatement_tree (h : s.Sound) (d : Definition) :
    addStatement d s.tree = .ok (s.addTo d) := by
  cases s with
  | lineComment start => rfl
  | blockComment c =>
    obtain ⟨lineComment, blockComment, fullBacktracking, tokens, rules⟩ := d
    cases blockComment <;> rfl
  | fullBacktracking => rfl
  | token decl flags =>
    have hread := h.2
    obtain ⟨name, form⟩ := decl
    cases form <;> rw [addStatement, hread] <;> rfl
  | rule decl => exact addStatement_rule d decl

theorem foldlM_statements (h : ∀ s ∈ statements, s.Sound) (d : Definition) :
    (statements.map Statement.tree).foldlM addStatement d =
      .ok (statements.foldl Statement.addTo d) := by
  induction statements generalizing d with
  | nil => rfl
  | cons s statements ih =>
    obtain ⟨hs, hrest⟩ := List.forall_mem_cons.mp h
    rw [List.map_cons, List.foldlM_cons, addStatement_tree hs]
    exact ih hrest _

/-- A definition is read from the tree of statements. -/
theorem ofTree_of_statements (h : ∀ s ∈ statements, s.Sound) :
    ofTree ⟨"definition", "", "", statements.map Statement.tree, none⟩ =
      .ok (ofStatements statements) :=
  foldlM_statements h {}

theorem declarations_foldl (statements : List Statement) (d : Definition) :
    (statements.foldl Statement.addTo d).tokens = d.tokens ++
      statements.filterMap Statement.token? ∧
      (statements.foldl Statement.addTo d).rules = d.rules ++
      statements.filterMap Statement.rule? := by
  induction statements generalizing d with
  | nil => exact ⟨(List.append_nil _).symm, (List.append_nil _).symm⟩
  | cons s statements ih =>
    obtain ⟨htokens, hrules⟩ := ih (s.addTo d)
    rw [List.foldl_cons, htokens, hrules]
    cases s <;> simp [Statement.addTo, Statement.token?, Statement.rule?, List.filterMap_cons]

theorem tokens_ofStatements (statements : List Statement) :
    (ofStatements statements).tokens = statements.filterMap Statement.token? :=
  (declarations_foldl statements {}).1

theorem rules_ofStatements (statements : List Statement) :
    (ofStatements statements).rules = statements.filterMap Statement.rule? :=
  (declarations_foldl statements {}).2

theorem sound_of_mem_tokens (h : ∀ s ∈ statements, s.Sound) :
    ∀ decl ∈ (ofStatements statements).tokens, isTokenName decl.name = true := by
  intro decl hdecl
  rw [tokens_ofStatements, List.mem_filterMap] at hdecl
  obtain ⟨s, hs, htoken⟩ := hdecl
  cases s with
  | token decl' flags =>
    obtain rfl := Option.some.inj htoken
    exact (h _ hs).1
  | _ => exact absurd htoken nofun

theorem sound_of_mem_rules (h : ∀ s ∈ statements, s.Sound) :
    ∀ decl ∈ (ofStatements statements).rules, isRuleName decl.name = true ∧
    Item.SoundBranches decl.branches := by
  intro decl hdecl
  rw [rules_ofStatements, List.mem_filterMap] at hdecl
  obtain ⟨s, hs, hrule⟩ := hdecl
  cases s with
  | rule decl' =>
    obtain rfl := Option.some.inj hrule
    exact h _ hs
  | _ => exact absurd hrule nofun

theorem isFilled_ofStatements (h : ∀ s ∈ statements, s.Sound) :
    (ofStatements statements).isFilled = true := by
  refine List.all_eq_true.mpr fun decl hdecl => ?_
  have hbranches := (sound_of_mem_rules h decl hdecl).2
  rw [RuleDecl.isFilled, hbranches.filled, Bool.and_true, Bool.not_eq_true',
    List.isEmpty_eq_false_iff]
  exact hbranches.ne_nil

/-! ## Accepted texts -/

variable {text : List Char} {source : Option String} {fuel : Nat} {tree : Tree}

theorem knows_types : parser.lexer.Knows types.types :=
  ((Lexer.knows_ofTypes types.types).setLineComment "#").setBlockComment "<!--" "-->"

/-- The tree of an accepted text is that of statements, and these are written in the text. -/
theorem exists_statements (h : parser.parseWithin fuel text source = some (.ok tree)) :
    ∃ statements : List Statement, (∀ s ∈ statements, s.Sound) ∧
      tree = ⟨"definition", "", "", statements.map Statement.tree, none⟩ ∧
      ∃ tokens, parser.lexer.tokenizeFrom text source = .ok tokens ∧
        tokens.map (written ·.text) = statements.flatMap Statement.words := by
  obtain ⟨s, hsearch, rfl⟩ := Parser.exists_ok_of_map h
  have htakes := takes_of_searchWithin rfl knows_types hsearch
  have htip := Parser.rootEnd_of_searchWithin links_grammar hsearch
  obtain ⟨ds, hallows, htokens, htree⟩ :=
    Parser.allows_of_searchWithin endsApart_grammar (Parser.hooksRevert_of_uniform uniform_grammar)
    hsearch (congrArg (Option.map (·.node)) htip) htakes
  obtain ⟨statements, hsound, hrewritten, hwords⟩ : Phrase 13 _ _ := means_of_allows hallows
  refine ⟨statements, hsound, ?_, s.path.tokens, ?_, ?_⟩
  · rw [htree]
    exact rewritten_of_tree hrewritten
  · obtain ⟨stream, hpulls, -, -, hend⟩ := Parser.pulls_of_searchWithin hsearch
    exact Parser.tokenizeFrom_of_pulls hpulls hend
  · rw [← htokens, ← hwords]
    rfl

theorem exists_answer (text : List Char) (source : Option String) :
    ∃ bound answer, ∀ fuel, bound ≤ fuel → readWithin fuel text source = some answer := by
  obtain ⟨bound, result, hresult⟩ := Parser.exists_bound (p := parser) endsApart_grammar text source
  refine ⟨bound, ((result.map parser.treeOf).mapError .parse).bind ofTree, fun fuel hfuel => ?_⟩
  rw [readWithin, Parser.parseWithin, hresult fuel hfuel]
  rfl

/-- Reading the text of a definition comes to an answer, which is never that the tree is malformed.
Whatever tree the grammar of definitions makes of a text that it accepts, a definition is read from
it, and neither its rules nor the groups and branches in them are empty. -/
theorem exists_ofTree_eq_ok (text : List Char) (source : Option String) :
    (∃ bound answer, ∀ fuel, bound ≤ fuel → readWithin fuel text source = some answer) ∧
    (∀ fuel what, readWithin fuel text source ≠ some (.error (.malformed what))) ∧
    ∀ fuel tree, parser.parseWithin fuel text source = some (.ok tree) →
      ∃ d : Definition, ofTree tree = .ok d ∧ readWithin fuel text source = some (.ok d) ∧
        d.isFilled = true := by
  have hreads : ∀ fuel tree, parser.parseWithin fuel text source = some (.ok tree) →
      ∃ d : Definition, ofTree tree = .ok d ∧ readWithin fuel text source = some (.ok d) ∧
        d.isFilled = true := by
    intro fuel tree h
    obtain ⟨statements, hsound, rfl, -⟩ := exists_statements h
    refine ⟨ofStatements statements, ofTree_of_statements hsound, ?_, isFilled_ofStatements hsound⟩
    rw [readWithin, h]
    exact congrArg some (ofTree_of_statements hsound)
  refine ⟨exists_answer text source, fun fuel what hread => ?_, hreads⟩
  cases hparse : parser.parseWithin fuel text source with
  | none =>
    rw [readWithin, hparse] at hread
    exact (Option.some_ne_none _ hread.symm).elim
  | some result =>
    cases result with
    | error e =>
      rw [readWithin, hparse] at hread
      exact DefinitionError.noConfusion (Except.error.inj (Option.some.inj hread))
    | ok tree =>
      obtain ⟨d, -, hd, -⟩ := hreads fuel tree hparse
      rw [hd] at hread
      cases hread

end Definition

namespace Sample

/-- What is written is accepted. -/
theorem exists_ofTree_eq_ok_writable : ∃ fuel tree, ∃ d : Definition,
    Definition.parser.parseWithin fuel (writable.print '\n') none = some (.ok tree) ∧
    Definition.ofTree tree = .ok d ∧
    Definition.readWithin fuel (writable.print '\n') none = some (.ok d) ∧ d.isFilled = true := by
  obtain ⟨s, -, bound, hbound⟩ := Definition.exists_searchWithin_print
    (show Text.isBlank '\n' = true from rfl) (show writable.isWritable = true by decide) none
  have hparse : Definition.parser.parseWithin bound (writable.print '\n') none =
      some (.ok (Definition.parser.treeOf s)) := by
    rw [Parser.parseWithin, hbound bound (le_refl bound)]
    rfl
  obtain ⟨-, -, hreads⟩ := Definition.exists_ofTree_eq_ok (writable.print '\n') none
  obtain ⟨d, htree, hread, hfilled⟩ := hreads bound _ hparse
  exact ⟨bound, _, d, hparse, htree, hread, hfilled⟩

end Sample

end GrammarGraph
