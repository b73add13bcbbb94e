import GrammarGraph.Proofs.Spelling
import GrammarGraph.Proofs.Statements

/-!
# Reading what was written

A definition that can be written is read from its text as what it is
(`Definition.readWithin_print`).  The lexer gives tokens that stand for the words of the definition
(`Definition.spells_print`), the search reads these and rewrites its path to the tree of the
definition (`Meta.succeeds_definition`), and the definition is read from its tree
(`Definition.ofTree_tree`).
-/

namespace GrammarGraph

namespace Definition

theorem exists_searchWithin_print {blank : Char} (hblank : Text.isBlank blank = true)
    {d : Definition} (hd : d.isWritable = true) (source : Option String) :
    ∃ s, parser.treeOf s = d.tree ∧ ∃ bound, ∀ fuel, bound ≤ fuel →
      parser.searchWithin fuel (d.print blank) source = some (.ok s) := by
  obtain ⟨tokens, htokens, hspells⟩ := spells_print hblank hd source
  exact Parser.searchWithin_of_succeeds htokens (Meta.succeeds_definition d hd hspells)

/-- Where the search ends in a path that is rewritten to the tree of a definition,
the definition is read. -/
theorem readWithin_of_searchWithin {fuel : Nat} {text : List Char} {source : Option String}
    {s : Search} {d : Definition} (h : parser.searchWithin fuel text source = some (.ok s))
    (htree : parser.treeOf s = d.tree) :
    readWithin fuel text source = some (.ok d) := by
  rw [readWithin, Parser.parseWithin, h]
  show some (ofTree (parser.treeOf s)) = _
  rw [htree, ofTree_tree]

/-- A definition is read from its text: from some bound on there is an answer, and there is no
other. -/
theorem readWithin_print (blank : Char) (hblank : Text.isBlank blank = true) (d : Definition)
    (hd : d.isWritable = true) (source : Option String) :
    (∃ bound, ∀ fuel, bound ≤ fuel → readWithin fuel (d.print blank) source = some (.ok d)) ∧
      ∀ fuel answer, readWithin fuel (d.print blank) source = some answer → answer = .ok d := by
  obtain ⟨s, htree, bound, hbound⟩ := exists_searchWithin_print hblank hd source
  refine ⟨⟨bound, fun fuel hfuel => readWithin_of_searchWithin (hbound fuel hfuel) htree⟩,
    fun fuel answer hanswer => ?_⟩
  cases hsearch : parser.searchWithin fuel (d.print blank) source with
  | none =>
    rw [readWithin, Parser.parseWithin, hsearch] at hanswer
    cases hanswer
  | some result =>
    have hlarge := Run.iterate_mono (le_max_right bound fuel) (le_max_right bound fuel) hsearch
    obtain rfl : result = .ok s :=
      Option.some.inj (hlarge.symm.trans (hbound _ (le_max_left bound fuel)))
    exact Option.some.inj (hanswer.symm.trans (readWithin_of_searchWithin hsearch htree))

end Definition

namespace Sample

/-- A rule that is named like a keyword, a group, a text with a separator in it,
and all sorts of settings. -/
def writable : Definition where
  lineComment := some "//"
  blockComment := some ⟨"(*", "*)"⟩
  fullBacktracking := true
  tokens := [⟨"NAME", .word "[a-z]+"⟩, ⟨"DOT", .separator "." false true⟩,
    ⟨"IF", .keyword "if" false⟩, ⟨"TEXT", .literal⟩]
  rules := [
    ⟨"word", true, [[.single (some "TRUE") (.token "NAME") none,
      .group none [[.single none (.keyword "a; 'b") (some .zeroOrMore)],
        [.single none (.rule "rest") none]] (some .oneOrMore)]]⟩,
    ⟨"rest", false, [[.single none (.token "DOT") none]]⟩]

theorem readWithin_print_writable : Text.isBlank '\n' = true ∧ writable.isWritable = true ∧
    (∃ bound, ∀ fuel, bound ≤ fuel →
      Definition.readWithin fuel (writable.print '\n') none = some (.ok writable)) ∧
    ∀ fuel answer, Definition.readWithin fuel (writable.print '\n') none = some answer →
    answer = .ok writable :=
  ⟨by decide, by decide, Definition.readWithin_print '\n' (by decide) writable (by decide) none⟩

end Sample

end GrammarGraph
