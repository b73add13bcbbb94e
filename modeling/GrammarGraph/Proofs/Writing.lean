import GrammarGraph.Definition.Reading

/-!
# Writing definitions

A definition is written as a list of words (`Definition.words`), the settings before the
declarations of token types and these before the rules, and the words become a text with a blank
between any two of them (`Definition.print`).  The trees of the statements (`Definition.tree`) are
what a definition is read from: reading them gives the definition back (`Definition.ofTree_tree`).
-/

namespace GrammarGraph

/-! ## Words -/

/-- A text in double quotes. -/
def quote (text : String) : String := "\"" ++ text ++ "\""

def truthWord (b : Bool) : String := if b then "TRUE" else "FALSE"

namespace TokenDecl

/-- The keyword of a declaration. -/
def kindWord (d : TokenDecl) : String :=
  match d.form with
  | .keyword .. => "keyword"
  | .word _ => "word"
  | .leading _ => "prefix"
  | .trailing _ => "postfix"
  | .separator .. => "separator"
  | .literal => "literal"

/-- The text of a declaration, unless it declares the literal. -/
def value? (d : TokenDecl) : Option String :=
  match d.form with
  | .keyword text _ | .word text | .leading text | .trailing text | .separator text _ _ => some text
  | .literal => none

/-- The properties of a declaration, all of them. -/
def flags (d : TokenDecl) : List (String × Bool) :=
  match d.form with
  | .keyword _ caseSensitive => [("case-sensitive", caseSensitive)]
  | .separator _ isPattern whitespaceAllowed =>
    [("is-pattern", isPattern), ("whitespace-allowed", whitespaceAllowed)]
  | _ => []

/-- One property or more in braces, with commas between them. -/
def flagWords : List (String × Bool) → List String
  | [] => []
  | (key, b) :: rest => "\x7b" :: key :: ":" :: truthWord b ::
      (rest.flatMap fun (key, b) => [",", key, ":", truthWord b]) ++ ["\x7d"]

def words (d : TokenDecl) : List String :=
  d.kindWord :: d.name :: d.value?.toList.map quote ++ flagWords d.flags ++ [";"]

end TokenDecl

def Target.word : Target → String
  | token name | rule name => name
  | keyword text => quote text

namespace Item

/-- The identifier of an item and the sign behind it. -/
def identWords (ident : Option String) : List String := ident.toList.flatMap fun name => [name, "="]

mutual

def words : Item → List String
  | single ident target multiplicity =>
    identWords ident ++ target.word :: multiplicity.toList.map Multiplicity.text
  | group ident branches multiplicity =>
    identWords ident ++ "(" :: branchesWords branches ++ ")" ::
      multiplicity.toList.map Multiplicity.text

def branchWords : List Item → List String
  | [] => []
  | item :: items => words item ++ branchWords items

/-- Branches with bars between them. -/
def branchesWords : List (List Item) → List String
  | [] => []
  | branch :: rest => branchWords branch ++ furtherWords rest

def furtherWords : List (List Item) → List String
  | [] => []
  | branch :: rest => "|" :: branchWords branch ++ furtherWords rest

end

end Item

def RuleDecl.words (d : RuleDecl) : List String :=
  (if d.root then ["@grammar"] else []) ++ d.name :: "=" :: Item.branchesWords d.branches ++ [";"]

namespace Definition

def settingWords (d : Definition) : List String :=
  (d.lineComment.toList.flatMap fun start => ["line-comment-style", quote start, ";"]) ++
  (d.blockComment.toList.flatMap fun c =>
    ["block-comment-style", quote c.start, quote c.stop, ";"]) ++
  if d.fullBacktracking then ["enable", "full-backtracking", ";"] else []

def words (d : Definition) : List String :=
  d.settingWords ++ d.tokens.flatMap TokenDecl.words ++ d.rules.flatMap RuleDecl.words

/-- The text of a definition, with the given blank between any two words. -/
def print (blank : Char) (d : Definition) : List Char :=
  [blank].intercalate (d.words.map String.toList)

end Definition

/-! ## Trees -/

namespace Item

def identTrees (ident : Option String) : List Tree := ident.toList.map (Tree.plain "id")

def multiplicityTrees (multiplicity : Option Multiplicity) : List Tree :=
  multiplicity.toList.map fun m => Tree.plain "multiplicity" m.text

end Item

def Target.tree : Target → Tree
  | token name => .plain "token-id" name
  | keyword text => .plain "keyword-text" text
  | rule name => .plain "rule-id" name

namespace Item

mutual

def tree : Item → Tree
  | single ident target multiplicity =>
    ⟨"element", "", "", identTrees ident ++ target.tree :: multiplicityTrees multiplicity, none⟩
  | group ident branches multiplicity =>
    ⟨"element", "", "",
      identTrees ident ++ ⟨"group", "", "", branchTrees branches, none⟩ ::
      multiplicityTrees multiplicity, none⟩

def trees : List Item → List Tree
  | [] => []
  | item :: items => tree item :: trees items

def branchTrees : List (List Item) → List Tree
  | [] => []
  | branch :: rest => ⟨"branch", "", "", trees branch, none⟩ :: branchTrees rest

end

end Item

/-- The properties of a declaration; a declaration without any has no node for them. -/
def TokenDecl.flagTrees : List (String × Bool) → List Tree
  | [] => []
  | flags =>
    [⟨"properties", "", "", flags.map fun (key, b) => .plain key (if b then "true" else "false"),
        none⟩]

def TokenDecl.tree (d : TokenDecl) : Tree :=
  ⟨d.kindWord, "", "",
    .plain "id" d.name :: d.value?.toList.map (.plain "value") ++ TokenDecl.flagTrees d.flags, none⟩

def RuleDecl.tree (d : RuleDecl) : Tree :=
  ⟨"rule", d.name, "", (if d.root then [.plain "root" ""] else []) ++ Item.branchTrees d.branches,
    none⟩

namespace Definition

def settingTrees (d : Definition) : List Tree :=
  d.lineComment.toList.map (.plain "line-comment") ++
  (d.blockComment.toList.map fun c =>
    ⟨"block-comment", "", "", [.plain "begin" c.start, .plain "end" c.stop], none⟩) ++
  if d.fullBacktracking then [.plain "full-backtracking" ""] else []

/-- The tree that a definition is read from. -/
def tree (d : Definition) : Tree :=
  ⟨"definition", "", "", d.settingTrees ++ d.tokens.map TokenDecl.tree ++ d.rules.map RuleDecl.tree,
    none⟩

end Definition

/-! ## From trees to definitions -/

namespace Item

theorem readPart_target (target : Target) (d : Draft) :
    readPart target.tree d = .ok { d with target := some (.inl target) } := by
  cases target <;> simp [Target.tree, Tree.plain, readPart]

theorem readParts_idents (ident : Option String) (rest : List Tree) :
    readParts (identTrees ident ++ rest) {} = readParts rest { ident } := by
  cases ident with
  | none => rfl
  | some name => simp [identTrees, Tree.plain, readParts, readPart, bind, Except.bind]

theorem readParts_multiplicities (multiplicity : Option Multiplicity) (d : Draft)
    (hd : d.multiplicity = none) :
    readParts (multiplicityTrees multiplicity) d = .ok { d with multiplicity } := by
  cases multiplicity with
  | none =>
    obtain ⟨ident, target, _⟩ := d
    obtain rfl : _ = none := hd
    rfl
  | some m => simp [multiplicityTrees, Tree.plain, readParts, readPart, bind, Except.bind]

mutual

/-- An item is read from its tree. -/
theorem readItem_tree : ∀ item : Item, readItem item.tree = .ok (some item)
  | .single ident target multiplicity => by
    rw [tree, readItem, if_pos rfl, readParts_idents, readParts, readPart_target]
    simp only [bind, Except.bind]
    rw [readParts_multiplicities multiplicity _ rfl]
    rfl
  | .group ident branches multiplicity => by
    rw [tree, readItem, if_pos rfl, readParts_idents, readParts, readPart]
    simp [bind, Except.bind, readBranches_branchTrees branches, pure, Except.pure]
    rw [readParts_multiplicities multiplicity _ rfl]
    rfl

theorem readItems_trees : ∀ items : List Item, readItems (trees items) = .ok items
  | [] => by rw [trees, readItems]
  | item :: items => by
    rw [trees, readItems, readItem_tree item, readItems_trees items]
    rfl

theorem readBranches_branchTrees :
    ∀ branches : List (List Item), readBranches (branchTrees branches) = .ok branches
  | [] => by rw [branchTrees, readBranches]
  | branch :: rest => by
    rw [branchTrees, readBranches, readBranch, if_pos rfl, readItems_trees branch,
      readBranches_branchTrees rest]
    rfl

end

end Item

namespace TokenDecl

/-- A declaration is read from its tree. -/
theorem ofTree_tree (d : TokenDecl) : ofTree d.tree = .ok d := by
  obtain ⟨name, form⟩ := d
  cases form with
  | keyword text caseSensitive => cases caseSensitive <;> rfl
  | separator text isPattern whitespaceAllowed =>
    cases isPattern <;> cases whitespaceAllowed <;> rfl
  | word | leading | trailing | literal => rfl

end TokenDecl

theorem RuleDecl.ofTree_tree (d : RuleDecl) : ofTree d.tree = .ok d := by
  obtain ⟨name, root, branches⟩ := d
  have hroot : ∀ ts, Item.readBranches ((if root then [Tree.plain "root" ""] else []) ++ ts) =
      Item.readBranches ts := by
    intro ts
    cases root with
    | false => rfl
    | true =>
      rw [if_pos rfl, List.singleton_append, Item.readBranches, Tree.plain, Item.readBranch,
        if_neg (by decide)]
      cases Item.readBranches ts <;> rfl
  have hchild : ((RuleDecl.tree ⟨name, root, branches⟩).child? "root").isSome = root := by
    cases root with
    | true => rfl
    | false =>
      have hbranches : ∀ t ∈ Item.branchTrees branches, t.name = "branch" := by
        induction branches with
        | nil => exact nofun
        | cons branch rest ih =>
          rw [Item.branchTrees]
          exact List.forall_mem_cons.mpr ⟨rfl, ih⟩
      rw [Tree.child?, Option.isSome_eq_false_iff, Option.isNone_iff_eq_none, List.find?_eq_none]
      intro t ht
      rw [hbranches t ht]
      decide
  rw [ofTree, hchild]
  simp only [tree, hroot, Item.readBranches_branchTrees]
  rfl

namespace Definition

theorem addStatement_token (d : Definition) (decl : TokenDecl) :
    addStatement d decl.tree = .ok { d with tokens := d.tokens ++ [decl] } := by
  have hread := decl.ofTree_tree
  obtain ⟨name, form⟩ := decl
  cases form <;> rw [addStatement, hread] <;> rfl

theorem addStatement_rule (d : Definition) (decl : RuleDecl) :
    addStatement d decl.tree = .ok { d with rules := d.rules ++ [decl] } := by
  rw [addStatement, decl.ofTree_tree]
  rfl

theorem foldlM_tokens (decls : List TokenDecl) (d : Definition) :
    (decls.map TokenDecl.tree).foldlM addStatement d =
      .ok { d with tokens := d.tokens ++ decls } := by
  induction decls generalizing d with
  | nil =>
    rw [List.append_nil]
    rfl
  | cons decl decls ih =>
    rw [List.map_cons, List.foldlM_cons, addStatement_token]
    show List.foldlM addStatement _ _ = _
    rw [ih, List.append_assoc, List.singleton_append]

theorem foldlM_rules (decls : List RuleDecl) (d : Definition) :
    (decls.map RuleDecl.tree).foldlM addStatement d = .ok { d with rules := d.rules ++ decls } := by
  induction decls generalizing d with
  | nil =>
    rw [List.append_nil]
    rfl
  | cons decl decls ih =>
    rw [List.map_cons, List.foldlM_cons, addStatement_rule]
    show List.foldlM addStatement _ _ = _
    rw [ih, List.append_assoc, List.singleton_append]

theorem foldlM_settings (d : Definition) : d.settingTrees.foldlM addStatement {} =
    .ok { d with tokens := [], rules := [] } := by
  obtain ⟨lineComment, blockComment, fullBacktracking, tokens, rules⟩ := d
  cases lineComment <;> cases blockComment <;> cases fullBacktracking <;> rfl

/-- A definition is read from its tree. -/
theorem ofTree_tree (d : Definition) : ofTree d.tree = .ok d := by
  rw [ofTree, tree, List.foldlM_append, List.foldlM_append, foldlM_settings]
  show (do
      let d ← List.foldlM addStatement _ (d.tokens.map TokenDecl.tree);
        List.foldlM addStatement d _) = _
  rw [foldlM_tokens]
  show List.foldlM addStatement _ _ = _
  rw [foldlM_rules]
  rfl

end Definition

end GrammarGraph
