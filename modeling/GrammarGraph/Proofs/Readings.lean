import GrammarGraph.Proofs.Meanings

/-!
# How the texts of definitions are read

Every instance of a rule of the grammar of definitions means a piece of a definition.  There is one
lemma for each rule, which goes through the ways that the body of the rule lets through, and all of
them together give the reading of all that a search finds (`Meta.means_of_allows`).
-/

namespace GrammarGraph.Meta

variable {N : Nat} {w : List Label} {ds : List Derivation} {ident : Option String}

/-! ## Settings -/

theorem means_commentStyle (hs : commentStyleLayout.Sound) (h : commentStyleLayout.Passes 0 N w)
    (hds : Derives Means w ds) : Means (.node 0 ident ds) := by
  have hw : w ∈ [
      [.token (typeAt 20) "line", .token (typeAt 2) "begin", .token (typeAt 11) none],
      [.token (typeAt 21) "block", .token (typeAt 2) "begin", .token (typeAt 2) "end",
        .token (typeAt 11) none]] :=
    h.mem_of_ways hs (by decide) 6 rfl
  rcases List.mem_pair.mp hw with rfl | rfl
  · obtain ⟨t₁, _, rfl, h₁, hds⟩ := hds.token
    obtain ⟨t₂, _, rfl, h₂, hds⟩ := hds.token
    obtain ⟨t₃, _, rfl, h₃, hds⟩ := hds.token
    obtain rfl := hds.nil
    refine ⟨.lineComment (unquote t₂.text), trivial, rfl, ?_⟩
    rw [h₁.spelling_fixed rfl rfl, h₂.spelling_value, h₃.spelling_fixed rfl rfl]
    rfl
  · obtain ⟨t₁, _, rfl, h₁, hds⟩ := hds.token
    obtain ⟨t₂, _, rfl, h₂, hds⟩ := hds.token
    obtain ⟨t₃, _, rfl, h₃, hds⟩ := hds.token
    obtain ⟨t₄, _, rfl, h₄, hds⟩ := hds.token
    obtain rfl := hds.nil
    refine ⟨.blockComment ⟨unquote t₂.text, unquote t₃.text⟩, trivial, rfl, ?_⟩
    rw [h₁.spelling_fixed rfl rfl, h₂.spelling_value, h₃.spelling_value, h₄.spelling_fixed rfl rfl]
    rfl

theorem means_enable (hs : enableLayout.Sound) (h : enableLayout.Passes 0 N w)
    (hds : Derives Means w ds) : Means (.node 1 ident ds) := by
  have hw : w ∈ [[.token (typeAt 22) none, .token (typeAt 23) none, .token (typeAt 11) none]] :=
    h.mem_of_ways hs (by decide) 6 rfl
  obtain rfl := List.mem_singleton.mp hw
  obtain ⟨t₁, _, rfl, h₁, hds⟩ := hds.token
  obtain ⟨t₂, _, rfl, h₂, hds⟩ := hds.token
  obtain ⟨t₃, _, rfl, h₃, hds⟩ := hds.token
  obtain rfl := hds.nil
  refine ⟨.fullBacktracking, trivial, rfl, ?_⟩
  rw [h₁.spelling_fixed rfl rfl, h₂.spelling_fixed rfl rfl, h₃.spelling_fixed rfl rfl]
  rfl

/-! ## Declarations of token types -/

/-- Declarations of a kind are read, whatever their properties. -/
def Declares (kind : String) : Prop :=
  ∀ (name text : String) (flags : List (String × Bool)), ∃ decl : TokenDecl, decl.name = name ∧
    decl.kindWord = kind ∧ decl.value? = some text ∧
    TokenDecl.ofTree ⟨kind, "", "",
      .plain "id" name :: .plain "value" text :: TokenDecl.flagTrees flags, none⟩ = .ok decl

theorem declares_of_mem :
    ∀ kind ∈ ["keyword", "word", "prefix", "postfix", "separator"], Declares kind := by
  simp only [List.forall_mem_cons]
  refine ⟨?_, ?_, ?_, ?_, ?_, fun _ h => absurd h List.not_mem_nil⟩ <;> intro name text flags
  · exact ⟨⟨name, .keyword text _⟩, rfl, rfl, rfl, rfl⟩
  · exact ⟨⟨name, .word text⟩, rfl, rfl, rfl, rfl⟩
  · exact ⟨⟨name, .leading text⟩, rfl, rfl, rfl, rfl⟩
  · exact ⟨⟨name, .trailing text⟩, rfl, rfl, rfl, rfl⟩
  · exact ⟨⟨name, .separator text _ _⟩, rfl, rfl, rfl, rfl⟩

/-- The rule for the declarations of a kind, which start with the word for it. -/
structure DeclarationRule (rule keyword : Nat) (kind : String) : Prop where
  rule : grammar.rule? rule = some (tokenRule kind (typeAt keyword))
  word : fixed? (typeAt keyword).kind = some kind
  plain : isLiteralText kind.toList = false
  reads : Declares kind

section

variable {rule keyword : Nat} {kind : String}

/-- What declares a token type with a text is a statement, with or without properties. -/
theorem exists_declaration (hrule : DeclarationRule rule keyword kind) {t₁ t₂ t₃ t₄ : Token}
    (h₁ : Takes (typeAt keyword) none t₁) (h₂ : Takes (typeAt 1) "id" t₂)
    (h₃ : Takes (typeAt 2) "value" t₃) (h₄ : Takes (typeAt 11) none t₄)
    (properties : List Derivation) (flags : List (String × Bool))
    (htree : (Derivation.rewrittenAll grammar properties).filterMap tokenChild =
      TokenDecl.flagTrees flags)
    (hwords : spelling properties = TokenDecl.flagWords flags)
    (hds : ds = .leaf (typeAt keyword) none t₁ :: .leaf (typeAt 1) "id" t₂ ::
      .leaf (typeAt 2) "value" t₃ :: (properties ++ [.leaf (typeAt 11) none t₄])) :
    ∃ s : Statement, s.Sound ∧
      { (Derivation.node rule ident ds).rewritten grammar with id := "" } = s.tree ∧
      spelling ds = s.words := by
  obtain ⟨decl, hname, hkind', hvalue, hread⟩ := hrule.reads t₂.text (unquote t₃.text) flags
  have htransform : grammar.transform? rule = some fun t =>
      ⟨kind, "", "", t.children.filterMap tokenChild, none⟩ := by
    rw [Grammar.transform?, hrule.rule]
    rfl
  have hstatement : (Statement.token decl flags).tree = ⟨kind, "", "", .plain "id" t₂.text ::
        .plain "value" (unquote t₃.text) :: TokenDecl.flagTrees flags, none⟩ := by
    rw [Statement.tree, hkind', hname, hvalue]
    rfl
  have hchildren : (Derivation.rewrittenAll grammar ds).filterMap tokenChild =
      .plain "id" t₂.text :: .plain "value" (unquote t₃.text) :: TokenDecl.flagTrees flags := by
    rw [hds]
    show .plain "id" t₂.text :: .plain "value" (unquote t₃.text) :: List.filterMap tokenChild _ = _
    rw [rewrittenAll_append, List.filterMap_append, htree]
    exact congrArg _ (congrArg _ (List.append_nil _))
  refine ⟨.token decl flags, ⟨hname ▸ h₂.isTokenName, by rwa [hstatement]⟩, ?_, ?_⟩
  · rw [hstatement, Derivation.rewritten, htransform, ← hchildren]
  · rw [hds, h₁.spelling_fixed hrule.word hrule.plain, h₂.spelling_tokenName, h₃.spelling_value,
      spelling_append, hwords, h₄.spelling_fixed rfl rfl, Statement.words, hkind', hname, hvalue]
    rfl

/-- No properties are set. -/
theorem exists_plainDecl (hrule : DeclarationRule rule keyword kind)
    (hds : Derives Means [.token (typeAt keyword) none, .token (typeAt 1) "id",
      .token (typeAt 2) "value", .token (typeAt 11) none] ds) :
    ∃ s : Statement, s.Sound ∧
      { (Derivation.node rule ident ds).rewritten grammar with id := "" } = s.tree ∧
      spelling ds = s.words := by
  obtain ⟨t₁, _, rfl, h₁, hds⟩ := hds.token
  obtain ⟨t₂, _, rfl, h₂, hds⟩ := hds.token
  obtain ⟨t₃, _, rfl, h₃, hds⟩ := hds.token
  obtain ⟨t₄, _, rfl, h₄, hds⟩ := hds.token
  obtain rfl := hds.nil
  exact exists_declaration hrule h₁ h₂ h₃ h₄ [] [] rfl rfl rfl

theorem exists_valueDecl (hrule : DeclarationRule rule keyword kind)
    (hs : (valueLayout keyword).Sound) (h : (valueLayout keyword).Passes 0 N w)
    (hds : Derives Means w ds) :
    ∃ s : Statement, s.Sound ∧
      { (Derivation.node rule ident ds).rewritten grammar with id := "" } = s.tree ∧
      spelling ds = s.words := by
  have hw : w ∈ [[.token (typeAt keyword) none, .token (typeAt 1) "id", .token (typeAt 2) "value",
      .token (typeAt 11) none]] := h.mem_of_ways hs (by decide : 0 < 6) 8 rfl
  obtain rfl := List.mem_singleton.mp hw
  exact exists_plainDecl hrule hds

theorem flagTrees_of_ne_nil {flags : List (String × Bool)} (h : flags ≠ []) :
    TokenDecl.flagTrees flags = [⟨"properties", "", "",
      flags.map fun (key, b) => .plain key (if b then "true" else "false"), none⟩] := by
  cases flags with
  | nil => exact absurd rfl h
  | cons => rfl

theorem exists_flaggedDecl (hrule : DeclarationRule rule keyword kind)
    (hs : (flaggedLayout keyword).Sound) (h : (flaggedLayout keyword).Passes 0 N w)
    (hds : Derives Means w ds) :
    ∃ s : Statement, s.Sound ∧
      { (Derivation.node rule ident ds).rewritten grammar with id := "" } = s.tree ∧
      spelling ds = s.words := by
  have hw : w ∈ [
      [.token (typeAt keyword) none, .token (typeAt 1) "id", .token (typeAt 2) "value",
        .rule 2 "properties", .token (typeAt 11) none], [.token (typeAt keyword) none,
        .token (typeAt 1) "id", .token (typeAt 2) "value", .token (typeAt 11) none]] :=
    h.mem_of_ways hs (by decide : 0 < 10) 12 rfl
  rcases List.mem_pair.mp hw with rfl | rfl
  · obtain ⟨t₁, _, rfl, h₁, hds⟩ := hds.token
    obtain ⟨t₂, _, rfl, h₂, hds⟩ := hds.token
    obtain ⟨t₃, _, rfl, h₃, hds⟩ := hds.token
    obtain ⟨cs, _, rfl, hmeans, hds⟩ := hds.call
    obtain ⟨flags, hflags, htree, hwords⟩ : Phrase 2 _ _ := hmeans
    obtain ⟨t₄, _, rfl, h₄, hds⟩ := hds.token
    obtain rfl := hds.nil
    refine exists_declaration hrule h₁ h₂ h₃ h₄ [_] flags ?_ ?_ rfl
    · rw [Derivation.rewrittenAll, rewritten_of_tree htree, flagTrees_of_ne_nil hflags]
      rfl
    · rw [spelling_node, hwords]
      exact List.append_nil _
  · exact exists_plainDecl hrule hds

end

theorem means_literal (hs : literalLayout.Sound) (h : literalLayout.Passes 0 N w)
    (hds : Derives Means w ds) : Means (.node 8 ident ds) := by
  have hw : w ∈ [[.token (typeAt 19) none, .token (typeAt 1) "id", .token (typeAt 11) none]] :=
    h.mem_of_ways hs (by decide) 6 rfl
  obtain rfl := List.mem_singleton.mp hw
  obtain ⟨t₁, _, rfl, h₁, hds⟩ := hds.token
  obtain ⟨t₂, _, rfl, h₂, hds⟩ := hds.token
  obtain ⟨t₃, _, rfl, h₃, hds⟩ := hds.token
  obtain rfl := hds.nil
  refine ⟨.token ⟨t₂.text, .literal⟩ [], ⟨h₂.isTokenName, rfl⟩, rfl, ?_⟩
  rw [h₁.spelling_fixed rfl rfl, h₂.spelling_tokenName, h₃.spelling_fixed rfl rfl]
  rfl

/-! ## Properties of declarations -/

/-- One property behind a brace or a comma. -/
def flagLabels (before key : Nat) (b : Bool) : List Label :=
  [.token (typeAt before) none, .token (typeAt key) "property", .token (typeAt 7) none,
    .token (typeAt (if b then 12 else 13)) "value"]

/-- Any of some properties. -/
def flagWays (before : Nat) (keys : List Nat) : List (List Label) :=
  keys.flatMap fun key => [flagLabels before key true, flagLabels before key false]

/-- The children tell the properties. -/
structure Sets (ds : List Derivation) (flags : List (String × Bool)) : Prop where
  keys : ((Derivation.rewrittenAll grammar ds).filter (·.hasId "property")).map (·.text) =
    flags.map (·.1)
  values : ((Derivation.rewrittenAll grammar ds).filter (·.hasId "value")).map (·.text) =
    flags.map (truthWord ·.2)

theorem Sets.append {ds' : List Derivation} {flags flags' : List (String × Bool)}
    (h : Sets ds flags) (h' : Sets ds' flags') : Sets (ds ++ ds') (flags ++ flags') := by
  constructor
  · rw [rewrittenAll_append, List.filter_append, List.map_append, List.map_append, h.keys, h'.keys]
  · rw [rewrittenAll_append, List.filter_append, List.map_append, List.map_append, h.values,
      h'.values]

/-- The transformation pairs the texts of the keys with those of the values. -/
theorem map_zip_eq {keys values : List Tree} {flags : List (String × Bool)}
    (hkeys : keys.map (·.text) = flags.map (·.1))
    (hvalues : values.map (·.text) = flags.map (truthWord ·.2)) :
    (keys.zip values).map
        (fun p => Tree.plain p.1.text (if p.2.text = "TRUE" then "true" else "false")) =
      flags.map fun flag => .plain flag.1 (if flag.2 then "true" else "false") :=
  calc (keys.zip values).map
        (fun p => Tree.plain p.1.text (if p.2.text = "TRUE" then "true" else "false"))
      = ((keys.map (·.text)).zip (values.map (·.text))).map
          fun p => Tree.plain p.1 (if p.2 = "TRUE" then "true" else "false") := by
        rw [List.zip_map, List.map_map]
        rfl
    _ = flags.map fun flag => .plain flag.1 (if flag.2 then "true" else "false") := by
        rw [hkeys, hvalues, List.zip_map', List.map_map]
        refine List.map_congr_left ?_
        rintro ⟨key, b⟩ -
        cases b <;> rfl

theorem exists_flag {before key : Nat} {b : Bool} (mark : String)
    (hmark : fixed? (typeAt before).kind = some mark) (hplain : isLiteralText mark.toList = false)
    (hkey : key ∈ [24, 25, 26]) (hds : Derives Means (flagLabels before key b) ds) :
    ∃ name, Sets ds [(name, b)] ∧ spelling ds = [mark, name, ":", truthWord b] := by
  have hnames : ∀ key ∈ [24, 25, 26], ∃ name, fixed? (typeAt key).kind = some name ∧
      isLiteralText name.toList = false := by
    simp only [List.forall_mem_cons]
    exact ⟨⟨_, rfl, rfl⟩, ⟨_, rfl, rfl⟩, ⟨_, rfl, rfl⟩, fun _ h => absurd h List.not_mem_nil⟩
  have htruth : fixed? (typeAt (if b then 12 else 13)).kind = some (truthWord b) ∧
      isLiteralText (truthWord b).toList = false := by cases b <;> exact ⟨rfl, rfl⟩
  obtain ⟨name, hname, hliteral⟩ := hnames key hkey
  obtain ⟨t₁, _, rfl, h₁, hds⟩ := hds.token
  obtain ⟨t₂, _, rfl, h₂, hds⟩ := hds.token
  obtain ⟨t₃, _, rfl, h₃, hds⟩ := hds.token
  obtain ⟨t₄, _, rfl, h₄, hds⟩ := hds.token
  obtain rfl := hds.nil
  refine ⟨name, ⟨?_, ?_⟩, ?_⟩
  · exact congrArg (fun text => [text]) (h₂.text_fixed hname)
  · exact congrArg (fun text => [text]) (h₄.text_fixed htruth.1)
  · rw [h₁.spelling_fixed hmark hplain, h₂.spelling_fixed hname hliteral, h₃.spelling_fixed rfl rfl,
      h₄.spelling_fixed htruth.1 htruth.2]
    rfl

theorem exists_key_of_mem {before : Nat} {keys : List Nat} {u : List Label}
    (h : u ∈ flagWays before keys) : ∃ key ∈ keys, ∃ b, u = flagLabels before key b := by
  obtain ⟨key, hkey, hu⟩ := List.mem_flatMap.mp h
  rcases List.mem_pair.mp hu with rfl | rfl
  · exact ⟨key, hkey, true, rfl⟩
  · exact ⟨key, hkey, false, rfl⟩

/-- Properties behind commas. -/
theorem exists_flags {keys : List Nat} (hkeys : keys ⊆ [24, 25, 26]) :
    ∀ {us : List (List Label)} {ds : List Derivation}, us ⊆ flagWays 8 keys →
    Derives Means us.flatten ds → ∃ flags : List (String × Bool), Sets ds flags ∧
      spelling ds = flags.flatMap fun (key, b) => [",", key, ":", truthWord b]
  | [], _, _, hds => by
    obtain rfl := hds.nil
    exact ⟨[], ⟨rfl, rfl⟩, rfl⟩
  | u :: us, _, hways, hds => by
    obtain ⟨hu, hus⟩ := List.cons_subset.mp hways
    obtain ⟨key, hkey, b, rfl⟩ := exists_key_of_mem hu
    obtain ⟨ds₁, ds₂, rfl, hfirst, hrest⟩ := hds.append
    obtain ⟨name, hname, hwords⟩ := exists_flag "," rfl rfl (hkeys hkey) hfirst
    obtain ⟨flags, hflags, hwords'⟩ := exists_flags hkeys hus hrest
    refine ⟨(name, b) :: flags, hname.append hflags, ?_⟩
    rw [spelling_append, hwords, hwords']
    rfl

/-- Which properties may be set depends on where they stand, but the form does not. -/
theorem exists_keys {layout : Layout} (h : layout ∈ layouts 2) :
    ∃ keys ⊆ [24, 25, 26], 3 < layout.length ∧
    layout.ways [3] 12 [] 0 = (flagWays 3 keys).map (·, 3) ∧
    layout.ways [3] 12 [] 3 = (flagWays 8 keys).map (·, 3) ++
    [[.token (typeAt 4) none]].map (·, 1) := by
  have hlayouts : layouts 2 = [propertyLayout 25, propertiesLayout 24 26, noPropertyLayout] := rfl
  rw [hlayouts, List.mem_cons, List.mem_pair] at h
  rcases h with rfl | rfl | rfl
  · exact ⟨[25], by decide, by decide, rfl, rfl⟩
  · exact ⟨[24, 26], by decide, by decide, rfl, rfl⟩
  · exact ⟨[], by decide, by decide, rfl, rfl⟩

theorem means_properties {layout : Layout} (hlayout : layout ∈ layouts 2) (hs : layout.Sound)
    (h : layout.Passes 0 N w) (hds : Derives Means w ds) : Means (.node 2 ident ds) := by
  obtain ⟨keys, hkeys, hlt, hfront, hrounds⟩ := exists_keys hlayout
  obtain ⟨u, hu, v, M, rfl, hrest⟩ :=
    h.exists_front hs (lt_of_le_of_lt (Nat.zero_le 3) hlt) 12 3 _ hfront
  obtain ⟨us, last, hus, hlast, rfl⟩ :=
    hrest.exists_rounds hs hlt (by decide) 11 _ _ (.of_eq hrounds)
  obtain rfl := List.mem_singleton.mp hlast
  obtain ⟨key, hkey, b, rfl⟩ := exists_key_of_mem hu
  obtain ⟨ds₁, ds', rfl, hfirst, hds⟩ := hds.append
  obtain ⟨ds₂, ds₃, rfl, hmore, hds⟩ := hds.append
  obtain ⟨t, _, rfl, ht, hds⟩ := hds.token
  obtain rfl := hds.nil
  obtain ⟨name, hname, hwords⟩ := exists_flag "\x7b" rfl rfl (hkeys hkey) hfirst
  obtain ⟨flags, hflags, hwords'⟩ := exists_flags hkeys hus hmore
  have hsets :=
    hname.append (hflags.append (show Sets [.leaf (typeAt 4) none t] [] from ⟨rfl, rfl⟩))
  rw [List.append_nil] at hsets
  refine ⟨(name, b) :: flags, List.cons_ne_nil _ _, ?_, ?_⟩
  · exact congrArg (fun children => (⟨"properties", "", "", children, none⟩ : Tree))
      (map_zip_eq hsets.keys hsets.values)
  · rw [spelling_append, spelling_append, hwords, hwords', ht.spelling_fixed rfl rfl]
    rfl

/-! ## Elements and branches -/

theorem exists_ident (hw : w ∈ [[.token (typeAt 29) "id", .token (typeAt 9) none], []])
    (hds : Derives Means w ds) : ∃ name : Option String,
      (Derivation.rewrittenAll grammar ds).filterMap elementChild = Item.identTrees name ∧
      spelling ds = Item.identWords name := by
  rcases List.mem_pair.mp hw with rfl | rfl
  · obtain ⟨t₁, _, rfl, h₁, hds⟩ := hds.token
    obtain ⟨t₂, _, rfl, h₂, hds⟩ := hds.token
    obtain rfl := hds.nil
    refine ⟨some t₁.text, rfl, ?_⟩
    rw [h₁.spelling_name, h₂.spelling_fixed rfl rfl]
    rfl
  · obtain rfl := hds.nil
    exact ⟨none, rfl, rfl⟩

theorem exists_multiplicity (hw : w ∈
      [[.token (typeAt 30) "mult"], [.token (typeAt 31) "mult"], [.token (typeAt 32) "mult"], []])
    (hds : Derives Means w ds) : ∃ multiplicity : Option Multiplicity,
      (Derivation.rewrittenAll grammar ds).filterMap elementChild =
        Item.multiplicityTrees multiplicity ∧
      spelling ds = multiplicity.toList.map Multiplicity.text := by
  have hsign {n : Nat} {m : Multiplicity} (hfixed : fixed? (typeAt n).kind = some m.text)
      (hds : Derives Means [.token (typeAt n) "mult"] ds) :
      (Derivation.rewrittenAll grammar ds).filterMap elementChild =
        Item.multiplicityTrees (some m) ∧ spelling ds = [m.text] := by
    obtain ⟨t, _, rfl, ht, hds⟩ := hds.token
    obtain rfl := hds.nil
    refine ⟨congrArg (fun text => [Tree.plain "multiplicity" text]) (ht.text_fixed hfixed), ?_⟩
    rw [ht.spelling_fixed hfixed (by cases m <;> rfl)]
    rfl
  simp only [List.mem_cons, List.not_mem_nil, or_false] at hw
  rcases hw with rfl | rfl | rfl | rfl
  · exact ⟨some .zeroOrOne, hsign rfl hds⟩
  · exact ⟨some .zeroOrMore, hsign rfl hds⟩
  · exact ⟨some .oneOrMore, hsign rfl hds⟩
  · obtain rfl := hds.nil
    exact ⟨none, rfl, rfl⟩

/-- A word by itself is a reference to a token if it looks like the name of one. -/
theorem exists_target (hw : w ∈
      [[.token (typeAt 1) "token"], [.token (typeAt 2) "keyword"], [.token (typeAt 27) "rule"]])
    (hds : Derives Means w ds) : ∃ target : Target, target.isNamed = true ∧
      (Derivation.rewrittenAll grammar ds).filterMap elementChild = [target.tree] ∧
      spelling ds = [target.word] := by
  simp only [List.mem_cons, List.not_mem_nil, or_false] at hw
  rcases hw with rfl | rfl | rfl <;> obtain ⟨t, _, rfl, ht, hds⟩ :=
    hds.token <;> obtain rfl := hds.nil
  · exact ⟨.token t.text, ht.isTokenName, rfl, ht.spelling_tokenName⟩
  · exact ⟨.keyword (unquote t.text), rfl, rfl, ht.spelling_value⟩
  · refine ⟨.rule t.text, ?_, rfl, ht.spelling_ruleName⟩
    exact Bool.and_eq_true_iff.mpr ⟨ht.isRuleName, congrArg not (Takes.not_isTokenName ht)⟩

/-- A group by itself. -/
theorem exists_group (hds : Derives Means [.rule 11 "group"] ds) : ∃ branches : List (List Item),
    Item.SoundBranches branches ∧
    (Derivation.rewrittenAll grammar ds).filterMap elementChild =
      [⟨"group", "", "", Item.branchTrees branches, none⟩] ∧
    spelling ds = "(" :: Item.branchesWords branches ++ [")"] := by
  obtain ⟨cs, _, rfl, hmeans, hds⟩ := hds.call
  obtain ⟨branches, hbranches, htree, hwords⟩ : Phrase 11 _ _ := hmeans
  obtain rfl := hds.nil
  refine ⟨branches, hbranches, ?_, ?_⟩
  · rw [Derivation.rewrittenAll, rewritten_of_tree htree]
    rfl
  · rw [spelling_node, hwords]
    exact List.append_nil _

theorem means_element (hs : elementLayout.Sound) (h : elementLayout.Passes 0 N w)
    (hds : Derives Means w ds) : Means (.node 9 ident ds) := by
  obtain ⟨u₁, hu₁, v, M₁, rfl, hfront⟩ := h.exists_front hs (by decide) 8 7
    [[.token (typeAt 29) "id", .token (typeAt 9) none], []] rfl
  obtain ⟨u₂, hu₂, u₃, M₂, rfl, hrest⟩ := hfront.exists_front hs (by decide) 8 14
    ([[.token (typeAt 1) "token"], [.token (typeAt 2) "keyword"], [.token (typeAt 27) "rule"]] ++
      [[.rule 11 "group"]]) rfl
  have hu₃ : u₃ ∈
      [[.token (typeAt 30) "mult"], [.token (typeAt 31) "mult"], [.token (typeAt 32) "mult"], []] :=
    hrest.mem_of_ways hs (by decide) 8 rfl
  obtain ⟨ds₁, _, rfl, hds₁, hds⟩ := hds.append
  obtain ⟨ds₂, ds₃, rfl, hds₂, hds₃⟩ := hds.append
  obtain ⟨name, hname, hwords₁⟩ := exists_ident hu₁ hds₁
  obtain ⟨multiplicity, hmultiplicity, hwords₃⟩ := exists_multiplicity hu₃ hds₃
  have hchildren {trees : List Tree}
      (h : (Derivation.rewrittenAll grammar ds₂).filterMap elementChild = trees) :
      { (Derivation.node 9 ident (ds₁ ++ (ds₂ ++ ds₃))).rewritten grammar with id := "" } =
        ⟨"element", "", "", Item.identTrees name ++ (trees ++ Item.multiplicityTrees multiplicity),
          none⟩ := by
    show (⟨"element", "", "", List.filterMap elementChild _, none⟩ : Tree) = _
    rw [rewrittenAll_append, rewrittenAll_append, List.filterMap_append, List.filterMap_append,
      hname, h, hmultiplicity]
  rcases List.mem_append.mp hu₂ with hu₂ | hu₂
  · obtain ⟨target, htarget, htrees, hwords₂⟩ := exists_target hu₂ hds₂
    refine ⟨.single name target multiplicity, ⟨rfl, List.forall_mem_singleton.mpr htarget⟩,
      hchildren htrees, ?_⟩
    rw [spelling_append, spelling_append, hwords₁, hwords₂, hwords₃]
    rfl
  · obtain rfl := List.mem_singleton.mp hu₂
    obtain ⟨branches, hbranches, htrees, hwords₂⟩ := exists_group hds₂
    refine ⟨.group name branches multiplicity, hbranches.group name multiplicity, hchildren htrees,
      ?_⟩
    rw [spelling_append, spelling_append, hwords₁, hwords₂, hwords₃, Item.words]
    simp only [List.append_assoc, List.cons_append, List.nil_append]

/-- Elements in a row. -/
theorem exists_items : ∀ {us : List (List Label)} {ds : List Derivation}, us ⊆ [[.rule 9 none]] →
    Derives Means us.flatten ds →
    ∃ items : List Item, (us = [] ∧ items = [] ∨ Item.SoundBranch items) ∧
      Derivation.rewrittenAll grammar ds = Item.trees items ∧ spelling ds = Item.branchWords items
  | [], _, _, hds => by
    obtain rfl := hds.nil
    exact ⟨[], .inl ⟨rfl, rfl⟩, rfl, rfl⟩
  | u :: us, _, helements, hds => by
    obtain ⟨hu, hus⟩ := List.cons_subset.mp helements
    obtain rfl := List.mem_singleton.mp hu
    obtain ⟨cs, ds', rfl, hmeans, hrest⟩ := hds.call
    obtain ⟨item, hitem, htree, hwords⟩ : Phrase 9 _ _ := hmeans
    obtain ⟨items, hitems, htrees, hwords'⟩ := exists_items hus hrest
    refine ⟨item :: items, .inr (hitem.cons (hitems.imp_left And.right)), ?_, ?_⟩
    · rw [Derivation.rewrittenAll, rewritten_of_tree htree, htrees, Item.trees]
      exact congrArg (· :: _) item.tree_with_id
    · rw [spelling_node, hwords, hwords', Item.branchWords]

theorem means_branch (hs : branchLayout.Sound) (h : branchLayout.Passes 0 N w)
    (hds : Derives Means w ds) : Means (.node 10 ident ds) := by
  obtain ⟨u, hu, v, M, rfl, hrest⟩ := h.exists_front hs (by decide) 4 2 [[.rule 9 none]] rfl
  obtain ⟨us, last, hus, hlast, rfl⟩ :=
    hrest.exists_rounds hs (by decide) (by decide) 4 [[.rule 9 none]] [[]] List.perm_append_comm
  obtain rfl := List.mem_singleton.mp hlast
  rw [List.append_nil] at hds
  obtain ⟨items, hitems, htrees, hwords⟩ := exists_items (List.cons_subset.mpr ⟨hu, hus⟩) hds
  refine ⟨items, hitems.resolve_left fun hnil => absurd hnil.1 (List.cons_ne_nil _ _), ?_, hwords⟩
  rw [← htrees]
  rfl

/-! ## Groups and rules -/

/-- The branches among the children. -/
def branchesAmong (ds : List Derivation) : List Tree :=
  ((Derivation.rewrittenAll grammar ds).filter (·.id = "branch")).map fun child =>
    { child with id := "" }

theorem branchesAmong_append (ds ds' : List Derivation) :
    branchesAmong (ds ++ ds') = branchesAmong ds ++ branchesAmong ds' := by
  rw [branchesAmong, rewrittenAll_append, List.filter_append, List.map_append]
  rfl

/-- The branch at the front of some. -/
theorem exists_branch {v : List Label} (hds : Derives Means (.rule 10 "branch" :: v) ds) :
    ∃ (branch : List Item) (d : Derivation) (ds' : List Derivation), ds = d :: ds' ∧
      Item.SoundBranch branch ∧
      d.rewritten grammar = ⟨"branch", "", "branch", Item.trees branch, none⟩ ∧
      spelling (d :: ds') = Item.branchWords branch ++ spelling ds' ∧ Derives Means v ds' := by
  obtain ⟨cs, ds', rfl, hmeans, hrest⟩ := hds.call
  obtain ⟨branch, hbranch, htree, hwords⟩ : Phrase 10 _ _ := hmeans
  refine ⟨branch, _, ds', rfl, hbranch, rewritten_of_tree htree, ?_, hrest⟩
  rw [spelling_node, hwords]

/-- Branches behind bars. -/
theorem exists_branches : ∀ {us : List (List Label)} {ds : List Derivation},
    us ⊆ [[.token (typeAt 10) none, .rule 10 "branch"]] → Derives Means us.flatten ds →
    ∃ branches : List (List Item), (branches = [] ∨ Item.SoundBranches branches) ∧
      branchesAmong ds = Item.branchTrees branches ∧
      (Derivation.rewrittenAll grammar ds).find? (·.hasId "root") = none ∧
      spelling ds = Item.furtherWords branches
  | [], _, _, hds => by
    obtain rfl := hds.nil
    exact ⟨[], .inl rfl, rfl, rfl, rfl⟩
  | u :: us, _, hfurther, hds => by
    obtain ⟨hu, hus⟩ := List.cons_subset.mp hfurther
    obtain rfl := List.mem_singleton.mp hu
    obtain ⟨t, _, rfl, ht, hds⟩ := hds.token
    obtain ⟨branch, d, ds', rfl, hbranch, htree, hwords, hrest⟩ := exists_branch hds
    obtain ⟨branches, hbranches, htrees, hroot, hwords'⟩ := exists_branches hus hrest
    refine ⟨branch :: branches, .inr (hbranch.cons hbranches), ?_, ?_, ?_⟩
    · show (List.filter _ (_ :: d.rewritten grammar :: _)).map _ = _
      rw [htree, Item.branchTrees, ← htrees]
      rfl
    · show List.find? _ (_ :: d.rewritten grammar :: _) = _
      rw [htree]
      exact hroot
    · rw [ht.spelling_fixed rfl rfl, hwords, hwords']
      rfl

/-- One branch or more with bars between them, and a mark. -/
theorem exists_marked {us : List (List Label)} {n : Nat} (mark : String)
    (hmark : fixed? (typeAt n).kind = some mark) (hplain : isLiteralText mark.toList = false)
    (hus : us ⊆ [[.token (typeAt 10) none, .rule 10 "branch"]])
    (hds : Derives Means (.rule 10 "branch" :: (us.flatten ++ [.token (typeAt n) none])) ds) :
    ∃ branches : List (List Item), Item.SoundBranches branches ∧
      branchesAmong ds = Item.branchTrees branches ∧
      (Derivation.rewrittenAll grammar ds).find? (·.hasId "root") = none ∧
      spelling ds = Item.branchesWords branches ++ [mark] := by
  obtain ⟨branch, d, ds', rfl, hbranch, htree, hwords, hafter⟩ := exists_branch hds
  obtain ⟨ds₁, ds₂, rfl, hmore, hlast⟩ := hafter.append
  obtain ⟨t, _, rfl, ht, hnil⟩ := hlast.token
  obtain rfl := hnil.nil
  obtain ⟨branches, hbranches, htrees, hroot, hwords'⟩ := exists_branches hus hmore
  refine ⟨branch :: branches, hbranch.cons hbranches, ?_, ?_, ?_⟩
  · show (List.filter _ (d.rewritten grammar :: _)).map _ = _
    rw [htree, Item.branchTrees, ← htrees, ← List.append_nil (branchesAmong ds₁)]
    exact congrArg (_ :: ·) (branchesAmong_append ds₁ _)
  · show List.find? _ (d.rewritten grammar :: _) = _
    rw [htree]
    show List.find? _ (Derivation.rewrittenAll grammar (ds₁ ++ _)) = _
    rw [rewrittenAll_append, List.find?_append, hroot]
    rfl
  · rw [hwords, spelling_append, hwords', ht.spelling_fixed hmark hplain, Item.branchesWords,
      List.append_assoc]
    rfl

theorem means_group (hs : groupLayout.Sound) (h : groupLayout.Passes 0 N w)
    (hds : Derives Means w ds) : Means (.node 11 ident ds) := by
  obtain ⟨u, hu, v, M, rfl, hrest⟩ :=
    h.exists_front hs (by decide) 6 10 [[.token (typeAt 5) none, .rule 10 "branch"]] rfl
  obtain ⟨us, last, hus, hlast, rfl⟩ := hrest.exists_rounds hs (by decide) (by decide) 8
    [[.token (typeAt 10) none, .rule 10 "branch"]] [[.token (typeAt 6) none]] .rfl
  obtain rfl := List.mem_singleton.mp hu
  obtain rfl := List.mem_singleton.mp hlast
  obtain ⟨t, ds', rfl, ht, hbranches⟩ := hds.token
  obtain ⟨branches, hsound, htrees, -, hwords⟩ := exists_marked ")" rfl rfl hus hbranches
  refine ⟨branches, hsound, ?_, ?_⟩
  · rw [← htrees]
    rfl
  · rw [ht.spelling_fixed rfl rfl, hwords]
    rfl

theorem means_rule (hs : ruleLayout.Sound) (h : ruleLayout.Passes 0 N w)
    (hds : Derives Means w ds) : Means (.node 12 ident ds) := by
  obtain ⟨u, hu, v, M, rfl, hrest⟩ := h.exists_front hs (by decide) 10 14
    [[.token (typeAt 28) "root", .token (typeAt 27) "name", .token (typeAt 9) none, .rule 10
      "branch"], [.token (typeAt 27) "name", .token (typeAt 9) none, .rule 10 "branch"]] rfl
  obtain ⟨us, last, hus, hlast, rfl⟩ := hrest.exists_rounds hs (by decide) (by decide) 8
    [[.token (typeAt 10) none, .rule 10 "branch"]] [[.token (typeAt 11) none]] .rfl
  obtain rfl := List.mem_singleton.mp hlast
  rcases List.mem_pair.mp hu with rfl | rfl
  · obtain ⟨t₁, _, rfl, h₁, hds⟩ := hds.token
    obtain ⟨t₂, _, rfl, h₂, hds⟩ := hds.token
    obtain ⟨t₃, ds', rfl, h₃, hbranches⟩ := hds.token
    obtain ⟨branches, hsound, htrees, -, hwords⟩ := exists_marked ";" rfl rfl hus hbranches
    refine ⟨.rule ⟨t₂.text, true, branches⟩, ⟨h₂.isRuleName, hsound⟩, ?_, ?_⟩
    · rw [Statement.tree, RuleDecl.tree, ← htrees]
      rfl
    · rw [h₁.spelling_fixed rfl rfl, h₂.spelling_ruleName, h₃.spelling_fixed rfl rfl, hwords]
      rfl
  · obtain ⟨t₂, _, rfl, h₂, hds⟩ := hds.token
    obtain ⟨t₃, ds', rfl, h₃, hbranches⟩ := hds.token
    obtain ⟨branches, hsound, htrees, hroot, hwords⟩ := exists_marked ";" rfl rfl hus hbranches
    refine ⟨.rule ⟨t₂.text, false, branches⟩, ⟨h₂.isRuleName, hsound⟩, ?_, ?_⟩
    · rw [Statement.tree, RuleDecl.tree, ← htrees]
      -- Neither the name nor the sign behind it has the id of the mark, nor has anything behind
      -- them.
      show (⟨"rule", t₂.text, "", (Option.map _ (List.find? (·.hasId "root")
          (Derivation.rewrittenAll grammar ds'))).toList ++ branchesAmong ds', none⟩ : Tree) = _
      rw [hroot]
      rfl
    · rw [h₂.spelling_ruleName, h₃.spelling_fixed rfl rfl, hwords]
      rfl

/-! ## Definitions -/

/-- Statements in a row. -/
theorem exists_statements : ∀ {us : List (List Label)} {ds : List Derivation},
    us ⊆ [0, 1, 3, 4, 5, 6, 7, 8, 12].map (fun rule => [.rule rule none]) →
    Derives Means us.flatten ds → ∃ statements : List Statement, (∀ s ∈ statements, s.Sound) ∧
      Derivation.rewrittenAll grammar ds = statements.map Statement.tree ∧
      spelling ds = statements.flatMap Statement.words
  | [], _, _, hds => by
    obtain rfl := hds.nil
    exact ⟨[], fun _ hs => absurd hs List.not_mem_nil, rfl, rfl⟩
  | u :: us, _, hstatements, hds => by
    obtain ⟨hu, hus⟩ := List.cons_subset.mp hstatements
    obtain ⟨rule, hrule, rfl⟩ := List.mem_map.mp hu
    obtain ⟨cs, ds', rfl, hmeans, hrest⟩ := hds.call
    have hphrase : ∀ rule ∈ [0, 1, 3, 4, 5, 6, 7, 8, 12], ∀ tree words, Phrase rule tree words →
        ∃ s : Statement, s.Sound ∧ tree = s.tree ∧ words = s.words := by
      simp only [List.forall_mem_cons]
      exact ⟨fun _ _ => id, fun _ _ => id, fun _ _ => id, fun _ _ => id, fun _ _ => id, fun _ _ =>
        id, fun _ _ => id, fun _ _ => id, fun _ _ => id, fun _ h => absurd h List.not_mem_nil⟩
    obtain ⟨s, hs, htree, hwords⟩ := hphrase rule hrule _ _ hmeans
    obtain ⟨statements, hall, htrees, hwords'⟩ := exists_statements hus hrest
    refine ⟨s :: statements, List.forall_mem_cons.mpr ⟨hs, hall⟩, ?_, ?_⟩
    · rw [Derivation.rewrittenAll, rewritten_of_tree htree, htrees]
      exact congrArg (· :: _) s.tree_with_id
    · rw [spelling_node, hwords, hwords']
      rfl

theorem means_definition (hs : definitionLayout.Sound) (h : definitionLayout.Passes 0 N w)
    (hds : Derives Means w ds) : Means (.node 13 ident ds) := by
  obtain ⟨u, hu, v, M, rfl, hrest⟩ := h.exists_front hs (by decide) 4 22 [[]] rfl
  obtain ⟨us, last, hus, hlast, rfl⟩ := hrest.exists_rounds hs (by decide) (by decide) 6
    ([0, 1, 3, 4, 5, 6, 7, 8, 12].map fun rule => [.rule rule none]) [[]] .rfl
  obtain rfl := List.mem_singleton.mp hu
  obtain rfl := List.mem_singleton.mp hlast
  rw [List.nil_append, List.append_nil] at hds
  obtain ⟨statements, hall, htrees, hwords⟩ := exists_statements hus hds
  refine ⟨statements, hall, ?_, hwords⟩
  rw [← htrees]
  rfl

/-- Whatever is found in an arena of the search means something. -/
theorem means_of_allows {graph : Graph} {d : Derivation}
    (h : graph.Allows grammar Takes d) : Means d := by
  refine allows_induction (fun _ _ _ => id) ?_ h
  intro rule ident ds layout hlayout N w hs h hds
  have hlt := lt_of_mem_layouts hlayout
  -- The rule for properties has three bodies, every other one has a single body.
  by_cases hrule : rule = 2
  · subst hrule
    exact means_properties hlayout hs h hds
  interval_cases rule
  · obtain rfl := List.mem_singleton.mp hlayout
    exact means_commentStyle hs h hds
  · obtain rfl := List.mem_singleton.mp hlayout
    exact means_enable hs h hds
  · exact absurd rfl hrule
  · obtain rfl := List.mem_singleton.mp hlayout
    exact exists_flaggedDecl ⟨rfl, rfl, rfl, declares_of_mem "keyword" (by decide)⟩ hs h hds
  · obtain rfl := List.mem_singleton.mp hlayout
    exact exists_valueDecl ⟨rfl, rfl, rfl, declares_of_mem "word" (by decide)⟩ hs h hds
  · obtain rfl := List.mem_singleton.mp hlayout
    exact exists_valueDecl ⟨rfl, rfl, rfl, declares_of_mem "prefix" (by decide)⟩ hs h hds
  · obtain rfl := List.mem_singleton.mp hlayout
    exact exists_valueDecl ⟨rfl, rfl, rfl, declares_of_mem "postfix" (by decide)⟩ hs h hds
  · obtain rfl := List.mem_singleton.mp hlayout
    exact exists_flaggedDecl ⟨rfl, rfl, rfl, declares_of_mem "separator" (by decide)⟩ hs h hds
  · obtain rfl := List.mem_singleton.mp hlayout
    exact means_literal hs h hds
  · obtain rfl := List.mem_singleton.mp hlayout
    exact means_element hs h hds
  · obtain rfl := List.mem_singleton.mp hlayout
    exact means_branch hs h hds
  · obtain rfl := List.mem_singleton.mp hlayout
    exact means_group hs h hds
  · obtain rfl := List.mem_singleton.mp hlayout
    exact means_rule hs h hds
  · obtain rfl := List.mem_singleton.mp hlayout
    exact means_definition hs h hds

end GrammarGraph.Meta
