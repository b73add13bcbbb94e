import GrammarGraph.Proofs.Instances
import GrammarGraph.Proofs.Phrases

/-!
# What the texts of definitions mean

A definition is a list of statements (`Statement`), and what is read as one is sound: its names are
names of their sort, and neither rules nor groups nor branches are empty.  An instance of a rule of
the grammar of definitions means such a piece of a definition if it is rewritten to the tree of that
piece and its tokens are the words of it, up to the quotes (`Meta.Means`).
-/

namespace GrammarGraph

open GrammarGraph.Meta

/-! ## Pieces of definitions -/

/-- A word that is read as a reference to a token looks like the name of one, and one that is read
as a reference to a rule looks like the name of a rule and not like that of a token. -/
def Target.isNamed : Target → Bool
  | token name => isTokenName name
  | keyword _ => true
  | rule name => isRuleName name && !isTokenName name

namespace Item

mutual

/-- Neither groups nor branches are empty, at any depth. -/
def isFilled : Item → Bool
  | single .. => true
  | group _ branches _ => !branches.isEmpty && branchesFilled branches

def itemsFilled : List Item → Bool
  | [] => true
  | item :: items => isFilled item && itemsFilled items

def branchesFilled : List (List Item) → Bool
  | [] => true
  | branch :: rest => !branch.isEmpty && itemsFilled branch && branchesFilled rest

end

/-- What is read as an item. -/
structure Sound (item : Item) : Prop where
  filled : item.isFilled = true
  named : ∀ a ∈ item.atoms, a.target.isNamed = true

/-- What is read as a branch. -/
structure SoundBranch (branch : List Item) : Prop where
  ne_nil : branch ≠ []
  filled : itemsFilled branch = true
  named : ∀ a ∈ atomsOfBranch branch, a.target.isNamed = true

/-- What is read as branches. -/
structure SoundBranches (branches : List (List Item)) : Prop where
  ne_nil : branches ≠ []
  filled : branchesFilled branches = true
  named : ∀ a ∈ atomsOfBranches branches, a.target.isNamed = true

theorem Sound.cons {item : Item} {items : List Item} (h : item.Sound)
    (hitems : items = [] ∨ SoundBranch items) : SoundBranch (item :: items) := by
  refine ⟨List.cons_ne_nil _ _, ?_, ?_⟩
  · rw [itemsFilled, h.filled, Bool.true_and]
    rcases hitems with rfl | hitems
    · rfl
    · exact hitems.filled
  · refine List.forall_mem_append.mpr ⟨h.named, ?_⟩
    rcases hitems with rfl | hitems
    · exact fun a ha => absurd ha List.not_mem_nil
    · exact hitems.named

theorem SoundBranch.cons {branch : List Item} {branches : List (List Item)} (h : SoundBranch branch)
    (hbranches : branches = [] ∨ SoundBranches branches) : SoundBranches (branch :: branches) := by
  refine ⟨List.cons_ne_nil _ _, ?_, ?_⟩
  · rw [branchesFilled, h.filled, Bool.and_true, Bool.and_eq_true, Bool.not_eq_true',
      List.isEmpty_eq_false_iff]
    refine ⟨h.ne_nil, ?_⟩
    rcases hbranches with rfl | hbranches
    · rfl
    · exact hbranches.filled
  · refine List.forall_mem_append.mpr ⟨h.named, ?_⟩
    rcases hbranches with rfl | hbranches
    · exact fun a ha => absurd ha List.not_mem_nil
    · exact hbranches.named

theorem SoundBranches.group {branches : List (List Item)} (h : SoundBranches branches)
    (ident : Option String) (multiplicity : Option Multiplicity) :
    Sound (.group ident branches multiplicity) := by
  refine ⟨?_, h.named⟩
  rw [isFilled, h.filled, Bool.and_true, Bool.not_eq_true', List.isEmpty_eq_false_iff]
  exact h.ne_nil

theorem tree_with_id (item : Item) : { item.tree with id := "" } = item.tree := by
  cases item <;> rfl

end Item

/-- A statement of a definition.  A declaration of a token type tells the
properties that its text sets. -/
inductive Statement where
  | lineComment (start : String)
  | blockComment (comment : BlockComment)
  | fullBacktracking
  | token (decl : TokenDecl) (flags : List (String × Bool))
  | rule (decl : RuleDecl)

namespace Statement

def words : Statement → List String
  | lineComment start => ["line-comment-style", quote start, ";"]
  | blockComment c => ["block-comment-style", quote c.start, quote c.stop, ";"]
  | fullBacktracking => ["enable", "full-backtracking", ";"]
  | token decl flags =>
    decl.kindWord :: decl.name :: decl.value?.toList.map quote ++ TokenDecl.flagWords flags ++ [";"]
  | rule decl => decl.words

def tree : Statement → Tree
  | lineComment start => .plain "line-comment" start
  | blockComment c => ⟨"block-comment", "", "", [.plain "begin" c.start, .plain "end" c.stop], none⟩
  | fullBacktracking => .plain "full-backtracking" ""
  | token decl flags =>
    ⟨decl.kindWord, "", "",
      .plain "id" decl.name :: decl.value?.toList.map (.plain "value") ++ TokenDecl.flagTrees flags,
      none⟩
  | rule decl => decl.tree

/-- What is read as a statement: names are names of their sort, the properties make the declaration
what it is, and neither rules nor groups nor branches are empty. -/
def Sound : Statement → Prop
  | token decl flags =>
    isTokenName decl.name = true ∧ TokenDecl.ofTree (token decl flags).tree = .ok decl
  | rule decl => isRuleName decl.name = true ∧ Item.SoundBranches decl.branches
  | _ => True

theorem tree_with_id (s : Statement) : { s.tree with id := "" } = s.tree := by
  cases s <;> rfl

end Statement

namespace Meta

/-! ## Words -/

/-- A word as a definition is written: with double quotes where it is quoted. -/
def written (text : String) : String :=
  if isLiteralText text.toList then quote (unquote text) else text

theorem written_of_isName {text : String} (h : isName text = true) : written text = text := by
  rw [written, not_isLiteralText_of_isName h]
  rfl

/-- The words that the tokens of derivations stand for. -/
def spelling (ds : List Derivation) : List String :=
  (Derivation.tokensOfAll ds).map (written ·.text)

section

variable {type : TokenType} {rule : RuleId} {ident : Option String} {token : Token}
  {ds ds' : List Derivation}

theorem spelling_leaf :
    spelling (.leaf type ident token :: ds) = written token.text :: spelling ds := rfl

theorem spelling_node : spelling (.node rule ident ds' :: ds) = spelling ds' ++ spelling ds := by
  rw [spelling, Derivation.tokensOfAll, List.map_append]
  rfl

theorem spelling_append : spelling (ds ++ ds') = spelling ds ++ spelling ds' := by
  induction ds with
  | nil => rfl
  | cons d ds ih =>
    have hcons :
        ∀ es, spelling (d :: es) = d.tokens.map (written ·.text) ++ spelling es := fun es => by
      rw [spelling, Derivation.tokensOfAll, List.map_append]
      rfl
    rw [List.cons_append, hcons, hcons, ih, List.append_assoc]

end

namespace Takes

variable {n : Nat} {ident : Option String} {token : Token} {ds : List Derivation}

theorem text_fixed (h : Takes (typeAt n) ident token) {word : String}
    (hfixed : fixed? (typeAt n).kind = some word) : token.text = word :=
  eq_of_fits hfixed (h.fits (known_typeAt n))

/-- A fixed word stands for itself. -/
theorem spelling_fixed (h : Takes (typeAt n) ident token) {word : String}
    (hfixed : fixed? (typeAt n).kind = some word) (hword : isLiteralText word.toList = false) :
    spelling (.leaf (typeAt n) ident token :: ds) = word :: spelling ds := by
  rw [spelling_leaf, h.text_fixed hfixed, written, hword]
  rfl

theorem spelling_value (h : Takes (typeAt 2) ident token) :
    spelling (.leaf (typeAt 2) ident token :: ds) = quote (unquote token.text) :: spelling ds := by
  have hliteral : isLiteralText token.text.toList = true := h.fits (known_typeAt 2)
  rw [spelling_leaf, written, if_pos hliteral]

theorem spelling_of_isName (h : isName token.text = true) :
    spelling (.leaf (typeAt n) ident token :: ds) = token.text :: spelling ds := by
  rw [spelling_leaf, written_of_isName h]

theorem isTokenName (h : Takes (typeAt 1) ident token) : isTokenName token.text = true := by
  rw [← accepts_tokenName]
  exact h.fits (known_typeAt 1)

theorem isRuleName (h : Takes (typeAt 27) ident token) : isRuleName token.text = true := by
  rw [← accepts_ruleName]
  exact h.fits (known_typeAt 27)

theorem spelling_tokenName (h : Takes (typeAt 1) ident token) :
    spelling (.leaf (typeAt 1) ident token :: ds) = token.text :: spelling ds :=
  spelling_of_isName (isName_of_isTokenName h.isTokenName)

theorem spelling_ruleName (h : Takes (typeAt 27) ident token) :
    spelling (.leaf (typeAt 27) ident token :: ds) = token.text :: spelling ds :=
  spelling_of_isName (isName_of_isRuleName h.isRuleName)

theorem spelling_name (h : Takes (typeAt 29) ident token) :
    spelling (.leaf (typeAt 29) ident token :: ds) = token.text :: spelling ds := by
  refine spelling_of_isName ?_
  rw [← accepts_name]
  exact h.fits (known_typeAt 29)

end Takes

/-! ## What instances come to -/

/-- The tree and the words of the instances of a rule. -/
def Phrase : RuleId → Tree → List String → Prop
  | 2, tree, words => ∃ flags : List (String × Bool), flags ≠ [] ∧
      tree = ⟨"properties", "", "", flags.map fun (key, b) =>
        .plain key (if b then "true" else "false"), none⟩ ∧ words = TokenDecl.flagWords flags
  | 9, tree, words => ∃ item : Item, item.Sound ∧ tree = item.tree ∧ words = item.words
  | 10, tree, words => ∃ branch : List Item, Item.SoundBranch branch ∧
      tree = ⟨"branch", "", "", Item.trees branch, none⟩ ∧ words = Item.branchWords branch
  | 11, tree, words => ∃ branches : List (List Item), Item.SoundBranches branches ∧
      tree = ⟨"group", "", "", Item.branchTrees branches, none⟩ ∧
      words = "(" :: Item.branchesWords branches ++ [")"]
  | 13, tree, words => ∃ statements : List Statement, (∀ s ∈ statements, s.Sound) ∧
      tree = ⟨"definition", "", "", statements.map Statement.tree, none⟩ ∧
      words = statements.flatMap Statement.words
  | _, tree, words => ∃ s : Statement, s.Sound ∧ tree = s.tree ∧ words = s.words

/-- What a derivation stands for: a slot takes what it may, and an instance comes
to a phrase of its rule. -/
def Means : Derivation → Prop
  | .leaf type ident token => Takes type ident token
  | .node rule ident ds =>
    Phrase rule { (Derivation.node rule ident ds).rewritten grammar with id := "" } (spelling ds)

section

variable {ds : List Derivation} {ident : Option String}

/-- The tree of an instance has the identifier of the reference for its id. -/
theorem rewritten_of_tree {rule : RuleId} {t : Tree}
    (h : { (Derivation.node rule ident ds).rewritten grammar with id := "" } = t) :
    (Derivation.node rule ident ds).rewritten grammar = { t with id := ident.getD "" } := by
  subst h
  rw [Derivation.rewritten]
  cases grammar.transform? rule <;> rfl

theorem rewrittenAll_append (ds ds' : List Derivation) :
    Derivation.rewrittenAll grammar (ds ++ ds') =
    Derivation.rewrittenAll grammar ds ++ Derivation.rewrittenAll grammar ds' := by
  simp only [Derivation.rewrittenAll_eq_map, List.map_append]

end

end Meta

end GrammarGraph
