import GrammarGraph.Proofs.Readable
import GrammarGraph.Proofs.WellFormedness

/-!
# How the names in definitions are read

A word that stands in a branch is read as a reference to a token if it looks like the name of one,
and as a reference to a rule if it only looks like the name of a rule (`Target.eq_token_of_isNamed`,
`Target.eq_rule_of_isNamed`).  So a name that is declared for a token can be referred to, and so can
one that is declared for a rule, unless it looks like the name of a token: what starts with an
underscore and has no lower-case letter may be either.  Main statement: `Definition.target_of_name`.
-/

namespace GrammarGraph

open GrammarGraph.Meta

namespace Target

variable {target : Target} {name : String}

theorem not_isName_of_keyword (text : String) : isName (keyword text).word = false := by
  refine Bool.eq_false_iff.mpr fun h => Bool.false_ne_true ?_
  exact (not_isLiteralText_of_isName h).symm.trans (isLiteralText_quote text)

theorem eq_token_of_isNamed (h : target.isNamed = true) (hname : isTokenName target.word = true) :
    target = .token target.word := by
  cases target with
  | token name => rfl
  | keyword text =>
    exact absurd ((not_isName_of_keyword text).symm.trans (isName_of_isTokenName hname))
        Bool.false_ne_true
  | rule name =>
    have hnot := (Bool.and_eq_true_iff.mp h).2
    rw [show isTokenName name = true from hname] at hnot
    exact absurd hnot Bool.false_ne_true

theorem eq_rule_of_isNamed (h : target.isNamed = true) (hname : isRuleName target.word = true)
    (hnot : isTokenName target.word = false) : target = .rule target.word := by
  cases target with
  | token name => exact absurd (hnot.symm.trans h) Bool.false_ne_true
  | keyword text =>
    exact absurd ((not_isName_of_keyword text).symm.trans (isName_of_isRuleName hname))
        Bool.false_ne_true
  | rule name => rfl

end Target

namespace Definition

variable {text : List Char} {source : Option String} {fuel : Nat} {d : Definition}
  {statements : List Statement} {target : Target}

/-- What is said to be an unknown token is referred to as one, and none has its name. -/
theorem refers_of_unknownToken {name : String} (h : d.grammar = .error (.unknownToken name)) :
    d.Refers (.token name) ∧ ∀ decl ∈ d.tokens, decl.name ≠ name := by
  have houtcome := outcome_grammar d Pattern.ofText?
  rw [h] at houtcome
  cases houtcome with
  | unknownToken hrefers hnone => exact ⟨hrefers, hnone⟩

theorem refers_of_unknownRule {name : String} (h : d.grammar = .error (.unknownRule name)) :
    d.Refers (.rule name) ∧ ∀ decl ∈ d.rules, decl.name ≠ name := by
  have houtcome := outcome_grammar d Pattern.ofText?
  rw [h] at houtcome
  cases houtcome with
  | unknownRule hrefers hnone => exact ⟨hrefers, hnone⟩

/-- What is referred to is named as it is read. -/
theorem isNamed_of_refers (h : ∀ s ∈ statements, s.Sound)
    (hrefers : (ofStatements statements).Refers target) : target.isNamed = true := by
  obtain ⟨decl, hdecl, a, ha, rfl⟩ := hrefers
  exact (sound_of_mem_rules h decl hdecl).2.named a ha

/-- A definition that is read is made of the statements in its text. -/
theorem exists_statements_of_readWithin (h : readWithin fuel text source = some (.ok d)) :
    ∃ statements : List Statement, (∀ s ∈ statements, s.Sound) ∧ d = ofStatements statements ∧
      ∃ tokens, parser.lexer.tokenizeFrom text source = .ok tokens ∧
        tokens.map (written ·.text) = statements.flatMap Statement.words := by
  obtain ⟨result, hparse, hresult⟩ := Option.map_eq_some_iff.mp h
  cases result with
  | error e => exact absurd hresult nofun
  | ok tree =>
    obtain ⟨statements, hsound, rfl, hwords⟩ := exists_statements hparse
    exact ⟨statements, hsound, Except.ok.inj (hresult.symm.trans (ofTree_of_statements hsound)),
      hwords⟩

/-- A definition that refers to a token by the name of a rule has no grammar. -/
theorem exists_error_of_refers {decl : RuleDecl} (hdecl : decl ∈ d.rules)
    (hrefers : d.Refers (.token decl.name)) : ∃ e, d.grammar = .error e := by
  have houtcome := outcome_grammar d Pattern.ofText?
  cases h : d.grammar with
  | error e => exact ⟨e, rfl⟩
  | ok g =>
    rw [h] at houtcome
    obtain ⟨token, htoken, hname⟩ := houtcome.tokens decl.name hrefers
    exact absurd hname (houtcome.apart token htoken decl hdecl)

/-- The text of a definition is read word for word as statements, and a name in a branch is read for
what it looks like.  If it is the name of a token type, it refers to a token; if it is that of a
rule, it refers to a rule unless it looks like the name of a token.  So neither a declared token
type is unknown, nor a declared rule that cannot be taken for a token, and there is no grammar where
one that can be taken for a token is referred to. -/
theorem target_of_name (h : readWithin fuel text source = some (.ok d)) :
    (∃ statements : List Statement, d = ofStatements statements ∧
      ∃ tokens, parser.lexer.tokenizeFrom text source = .ok tokens ∧
        tokens.map (written ·.text) = statements.flatMap Statement.words) ∧
    (∀ decl ∈ d.tokens, isTokenName decl.name = true ∧
      ∀ target, d.Refers target → target.word = decl.name → target = .token decl.name) ∧
    (∀ decl ∈ d.rules, isRuleName decl.name = true ∧
      ∀ target, d.Refers target → target.word = decl.name →
        target = if isTokenName decl.name then .token decl.name else .rule decl.name) ∧
    (∀ e, d.grammar = .error e →
      (∀ decl ∈ d.tokens, e ≠ .unknownToken decl.name ∧ e ≠ .unknownRule decl.name) ∧
      ∀ decl ∈ d.rules, isTokenName decl.name = false →
        e ≠ .unknownToken decl.name ∧ e ≠ .unknownRule decl.name) ∧
    ∀ decl ∈ d.rules, isTokenName decl.name = true →
      (∃ target, d.Refers target ∧ target.word = decl.name) → ∃ e, d.grammar = .error e := by
  obtain ⟨statements, hsound, rfl, hwords⟩ := exists_statements_of_readWithin h
  have htokens := sound_of_mem_tokens hsound
  have hrules := fun decl hdecl => (sound_of_mem_rules hsound decl hdecl).1
  have hnamed : ∀ target, (ofStatements statements).Refers target → target.isNamed = true :=
    fun target => isNamed_of_refers hsound
  refine ⟨⟨statements, rfl, hwords⟩, fun decl hdecl => ⟨htokens decl hdecl, ?_⟩, fun decl hdecl =>
    ⟨hrules decl hdecl, ?_⟩, fun e he => ⟨fun decl hdecl => ?_, fun decl hdecl hnot => ?_⟩,
    fun decl hdecl hname hreferred => ?_⟩
  · intro target hrefers hword
    rw [← hword]
    exact Target.eq_token_of_isNamed (hnamed target hrefers) (hword ▸ htokens decl hdecl)
  · intro target hrefers hword
    rw [← hword]
    split
    · next hname => exact Target.eq_token_of_isNamed (hnamed target hrefers) hname
    · next hname =>
      exact Target.eq_rule_of_isNamed (hnamed target hrefers) (hword ▸ hrules decl hdecl)
        (Bool.eq_false_iff.mpr hname)
  · constructor <;> rintro rfl
    · exact (refers_of_unknownToken he).2 decl hdecl rfl
    · have hname := Bool.and_eq_true_iff.mp (hnamed _ (refers_of_unknownRule he).1)
      rw [htokens decl hdecl] at hname
      exact absurd hname.2 Bool.false_ne_true
  · constructor <;> rintro rfl
    · exact absurd (hnot.symm.trans (hnamed _ (refers_of_unknownToken he).1)) Bool.false_ne_true
    · exact (refers_of_unknownRule he).2 decl hdecl rfl
  · obtain ⟨target, hrefers, hword⟩ := hreferred
    have htarget := Target.eq_token_of_isNamed (hnamed target hrefers) (hword ▸ hname)
    rw [htarget, hword] at hrefers
    exact exists_error_of_refers hdecl hrefers

end Definition

namespace Sample

/-- Tokens are told from rules by their names. -/
theorem target_of_name_writable : ∃ fuel, ∃ d : Definition,
    Definition.readWithin fuel (writable.print '\n') none = some (.ok d) ∧
    d.Refers (.token "NAME") ∧ d.Refers (.rule "rest") ∧
    (∀ decl ∈ d.tokens, isTokenName decl.name = true ∧
      ∀ target, d.Refers target → target.word = decl.name → target = .token decl.name) ∧
    ∀ decl ∈ d.rules, isRuleName decl.name = true ∧
      ∀ target, d.Refers target → target.word = decl.name →
        target = if isTokenName decl.name then .token decl.name else .rule decl.name := by
  obtain ⟨s, htree, bound, hbound⟩ := Definition.exists_searchWithin_print
    (show Text.isBlank '\n' = true from rfl) (show writable.isWritable = true by decide) none
  have hread := Definition.readWithin_of_searchWithin (hbound bound (le_refl bound)) htree
  obtain ⟨-, htokens, hrules, -⟩ := Definition.target_of_name hread
  refine ⟨bound, writable, hread, ?_, ?_, htokens, hrules⟩
  · exact ⟨_, List.mem_cons_self, ⟨some "TRUE", .token "NAME"⟩, List.mem_cons_self, rfl⟩
  · refine ⟨_, List.mem_cons_self, ⟨none, .rule "rest"⟩, ?_, rfl⟩
    exact List.mem_cons_of_mem _ (List.mem_cons_of_mem _ List.mem_cons_self)

/-- A rule that is named by an underscore refers to itself, but that is read as
a reference to a token. -/
theorem underscore_read_as_token : ∃ d : Definition,
    Definition.readWithin 40 "@grammar _ = \"x\" _?;".toList none = some (.ok d) ∧ d.tokens = [] ∧
    d.rules.map (fun decl => (decl.name, (Item.atomsOfBranches decl.branches).map (·.target))) =
      [("_", [.keyword "x", .token "_"])] ∧
    d.grammar = .error (.unknownToken "_") := by
  have hread :
      (Definition.readWithin 40 "@grammar _ = \"x\" _?;".toList none).any (·.toOption.any fun d =>
      d.tokens.isEmpty &&
      d.rules.map (fun decl => (decl.name, (Item.atomsOfBranches decl.branches).map (·.target))) ==
        [("_", [.keyword "x", .token "_"])] &&
      match d.grammar with
      | .error e => e == .unknownToken "_"
      | .ok _ => false) = true := by decide +kernel
  obtain ⟨d, hd, hok⟩ := Parser.exists_ok_of_any hread
  simp only [Bool.and_eq_true, List.isEmpty_iff, beq_iff_eq] at hok
  obtain ⟨⟨htokens, hrules⟩, hgrammar⟩ := hok
  refine ⟨d, hd, htokens, hrules, ?_⟩
  cases h : d.grammar with
  | ok g =>
    rw [h] at hgrammar
    exact absurd hgrammar Bool.false_ne_true
  | error e =>
    rw [h] at hgrammar
    exact congrArg _ (eq_of_beq hgrammar)

end Sample

end GrammarGraph
