import GrammarGraph.Proofs.Walking

/-!
# Reading statements

What each rule of the grammar of definitions reads, and what becomes of it.
-/

namespace GrammarGraph.Meta

open GrammarGraph.Search GrammarGraph.Path

variable {rest : List String}

theorem unquote_quote (text : String) : unquote (quote text) = text := by
  obtain ⟨c, cs, hsplit⟩ := List.exists_cons_of_ne_nil
    (List.append_ne_nil_of_right_ne_nil text.toList (List.cons_ne_nil '"' []))
  rw [unquote, toList_quote, hsplit]
  show String.ofList (c :: cs).dropLast = text
  rw [← hsplit, List.dropLast_concat, String.ofList_toList]

/-- No condition on the place. -/
def Anywhere (_ : Graph) (_ : List PathElement) (_ _ : NodeId) : Prop := True

theorem transformed_of_rule {rule : RuleId} {r : Rule} {f : Tree → Tree}
    (hrule : grammar.rule? rule = some r) (hf : r.transform = some f) (t : Tree) :
    t.transformed grammar .ast rule = { f t with id := t.id } := by
  have htransform : grammar.transform? rule = some f := by rw [Grammar.transform?, hrule]; exact hf
  simp only [Tree.transformed, htransform]

/-! ## Settings -/

theorem yields_lineComment (start : String) : Yields 0 Anywhere
    ["line-comment-style", quote start, ";"] (.plain "line-comment" start) rest := by
  refine yields commentStyleLayout rfl (fun _ _ _ _ _ => ⟨_, rfl, fun _ => rfl⟩) ?_
  rintro goal a b els els₀ ⟨base, layout, stop⟩ n ident parent outer rfl - - h - hdone
  refine h.take [] 2 [20] (Sure.admits (by decide)) rfl rfl (by decide) rfl (by decide)
    fun t₁ _ _ h => Reads.recovers ?_
  refine h.take [] 3 _ (admits_quote start) rfl rfl (by decide) rfl (isLiteralText_quote start)
    fun t₂ ht₂ _ h => Reads.recovers ?_
  refine h.take [] 4 [11] (Sure.admits (by decide)) rfl rfl (by decide) rfl (by decide)
    fun t₃ _ _ h => Reads.recovers ?_
  refine h.follow [1] rfl fun h => hdone _ _ _ _ (le_refl b) h ?_
  rw [← unquote_quote start, ← ht₂]
  rfl

theorem yields_blockComment (start stop : String) :
    Yields 0 Anywhere ["block-comment-style", quote start, quote stop, ";"]
      ⟨"block-comment", "", "", [.plain "begin" start, .plain "end" stop], none⟩ rest := by
  refine yields commentStyleLayout rfl (fun _ _ _ _ _ => ⟨_, rfl, fun _ => rfl⟩) ?_
  rintro goal a b els els₀ ⟨base, layout, _⟩ n ident parent outer rfl - - h - hdone
  refine h.take [] 5 [21] (Sure.admits (by decide)) rfl rfl (by decide) rfl (by decide)
    fun t₁ _ _ h => Reads.recovers ?_
  refine h.take [] 6 _ (admits_quote start) rfl rfl (by decide) rfl (isLiteralText_quote start)
    fun t₂ ht₂ _ h => Reads.recovers ?_
  refine h.take [] 7 _ (admits_quote stop) rfl rfl (by decide) rfl (isLiteralText_quote stop)
    fun t₃ ht₃ _ h => Reads.recovers ?_
  refine h.take [] 8 [11] (Sure.admits (by decide)) rfl rfl (by decide) rfl (by decide)
    fun t₄ _ _ h => Reads.recovers ?_
  refine h.follow [1] rfl fun h => hdone _ _ _ _ (le_refl b) h ?_
  rw [← unquote_quote start, ← unquote_quote stop, ← ht₂, ← ht₃]
  rfl

theorem yields_enable : Yields 1 Anywhere
    ["enable", "full-backtracking", ";"] (.plain "full-backtracking" "") rest := by
  refine yields enableLayout rfl (fun _ _ _ _ _ => ⟨_, rfl, fun _ => rfl⟩) ?_
  rintro goal a b els els₀ ⟨base, layout, stop⟩ n ident parent outer rfl - - h - hdone
  refine h.take [] 2 [22, 27, 29] (Sure.admits (by decide)) rfl rfl (by decide) rfl (by decide)
    fun t₁ _ _ h => Reads.recovers ?_
  refine h.take [] 3 [23] (Sure.admits (by decide)) rfl rfl (by decide) rfl (by decide)
    fun t₂ _ _ h => Reads.recovers ?_
  refine h.take [] 4 [11] (Sure.admits (by decide)) rfl rfl (by decide) rfl (by decide)
    fun t₃ _ _ h => Reads.recovers ?_
  exact h.follow [1] rfl fun h => hdone _ _ _ _ (le_refl b) h rfl

/-! ## Declarations of token types -/

theorem yields_valueDecl {rule : Nat} (keyword : Nat) (kind : String)
    (hrule : grammar.rule? rule = some (tokenRule kind (typeAt keyword)))
    (hlayout : (tokenBody kind (typeAt keyword)).template = (valueLayout keyword).graph)
    (hkind : Sure kind [keyword, 27, 29]) (hfits : fits (typeAt keyword).kind kind = true)
    {name : String} (hname : isTokenName name = true) (text : String) :
    Yields rule Anywhere [kind, name, quote text, ";"]
      ⟨kind, "", "", [.plain "id" name, .plain "value" text], none⟩ rest := by
  refine yields (valueLayout keyword) rfl
    (fun _ _ _ _ _ => ⟨fun _ => tokenBody kind (typeAt keyword), ?_, fun _ => hlayout⟩) ?_
  · rw [Grammar.expand?, hrule]
    rfl
  rintro goal a b els els₀ ⟨base, layout, stop⟩ n ident parent outer rfl - - h - hdone
  refine h.take [] 2 _ hkind.admits rfl rfl (by decide) rfl hfits fun t₁ _ _ h => Reads.recovers ?_
  refine h.take [] 3 _ (admits_tokenName hname) rfl rfl (by decide) rfl
    ((accepts_tokenName name).trans hname) fun t₂ ht₂ _ h => Reads.recovers ?_
  refine h.take [] 5 _ (admits_quote text) rfl rfl (by decide) rfl (isLiteralText_quote text)
    fun t₃ ht₃ _ h => Reads.recovers ?_
  refine h.take [] 4 [11] (Sure.admits (by decide)) rfl rfl (by decide) rfl (by decide)
    fun t₄ _ _ h => Reads.recovers ?_
  refine h.follow [1] rfl fun h => hdone _ _ _ _ (le_refl b) h ?_
  rw [transformed_of_rule hrule rfl, ← unquote_quote text, ← ht₂, ← ht₃]
  rfl

theorem yields_literal {name : String} (hname : isTokenName name = true) :
    Yields 8 Anywhere ["literal", name, ";"]
      ⟨"literal", "", "", [.plain "id" name], none⟩ rest := by
  refine yields literalLayout rfl (fun _ _ _ _ _ => ⟨_, rfl, fun _ => rfl⟩) ?_
  rintro goal a b els els₀ ⟨base, layout, stop⟩ n ident parent outer rfl - - h - hdone
  refine h.take [] 2 [19, 27, 29] (Sure.admits (by decide)) rfl rfl (by decide) rfl (by decide)
    fun t₁ _ _ h => Reads.recovers ?_
  refine h.take [] 3 _ (admits_tokenName hname) rfl rfl (by decide) rfl
    ((accepts_tokenName name).trans hname) fun t₂ ht₂ _ h => Reads.recovers ?_
  refine h.take [] 4 [11] (Sure.admits (by decide)) rfl rfl (by decide) rfl (by decide)
    fun t₃ _ _ h => Reads.recovers ?_
  refine h.follow [1] rfl fun h => hdone _ _ _ _ (le_refl b) h ?_
  rw [← ht₂]
  rfl

/-- Where the variable of the declaration around has this value. -/
def KindIs (kind : String) (graph : Graph) (els : List PathElement) (n _ : NodeId) : Prop :=
  (ofElements graph grammar (⟨n, none⟩ :: els)).path.var? "kind" = some (.text kind)

theorem kindIs_of_within {kind : String} {rule : RuleId} {graph : Graph} {els : List PathElement}
    {n stop stop' : NodeId} {ident : Option String} (h : Within graph els rule)
    (hk : graph.kind n = .ruleStart propertiesRule ident stop')
    (hkind : (grammar.ruleVars rule).get? "kind" = some (.text kind)) :
    KindIs kind graph els n stop := by
  obtain ⟨outer, hscopes⟩ := h
  show Scope.lookup "kind" 0
      ((ofElements graph grammar els).path.push graph grammar n none).scopes = _
  simp only [Path.push, hk, hscopes, Scope.lookup, hkind]
  rfl

/-- Which properties are allowed is told by the kind. -/
theorem template_of_kindIs {kind : String} {layout : Layout} {graph : Graph}
    {els : List PathElement} {n stop : NodeId} (h : KindIs kind graph els n stop)
    (hlayout : (propertiesBody ⟨⟨[], [.active (Env.empty.set "kind" (.text kind))]⟩,
      none⟩).template = layout.graph) :
    ∃ expand, grammar.expand? propertiesRule = some expand ∧
      ∀ token, (expand ⟨(ofElements graph grammar (⟨n, none⟩ :: els)).path, token⟩).template =
        layout.graph := by
  refine ⟨propertiesBody, rfl, fun token => Eq.trans ?_ hlayout⟩
  have hvar : Context.var? ⟨(ofElements graph grammar (⟨n, none⟩ :: els)).path, token⟩ "kind" =
      some (.text kind) := h
  have hvar' : Context.var? ⟨⟨[], [.active (Env.empty.set "kind" (.text kind))]⟩, none⟩ "kind" =
      some (.text kind) := rfl
  rw [propertiesBody, propertiesBody, hvar, hvar']

/-- One of two slots takes a truth value; behind both is the same node. -/
theorem At.truth {s : Site} {goal top : Tree} {graph : Graph} {els : List PathElement} {i y e : Nat}
    {outer : List Tree} {words : List String} {links : List Nat} (h : At s graph els i false [] [])
    (b : Bool) (path : List Nat) (hroutes : ∀ may, routes may false s.layout i [] path = true)
    (hyes : leads [12, 1, 29] false s.layout (path.getLastD i) y = true)
    (hno : leads [13, 1, 29] false s.layout (path.getLastD i) (y + 1) = true) (hyseen : y ∉ path)
    (hnseen : y + 1 ∉ path) (hy : s.layout[y]? = some (.slot 12 "value", [e]))
    (hn : s.layout[y + 1]? = some (.slot 13 "value", [e]))
    (he : s.layout[e]? = some (.junction, links)) (hexit : y ≠ 1 ∧ y + 1 ≠ 1)
    (hreads : ∀ (els' : List PathElement) (token : Token), token.text = truthWord b →
      At s graph els' e false [e] [] →
      Reads goal graph els' (top.addChild (.ofToken token "value") :: outer) words) :
    Reads goal graph els (top :: outer) (truthWord b :: words) := by
  have hnext {els : List PathElement} {k : Nat} {ident : String} {type : Nat} {token : Token}
      (ht : token.text = truthWord b) (h : At s graph els k false [] [])
      (hk : s.layout[k]? = some (.slot type ident, [e])) (hexit : k ≠ 1) :
      Reads goal graph els (top.addChild (.ofToken token "value") :: outer) words := by
    refine h.follow [e] ?_ fun h => hreads _ token ht h
    simp [routes, leads, hk, he, hexit]
  cases b with
  | false =>
    refine h.take path (y + 1) [13, 1, 29] (Sure.admits (by decide)) (hroutes _) hno
      (by simpa using hnseen) hn (by decide) fun token ht _ h => (hnext ht h hn hexit.2).recovers
  | true =>
    refine h.take path y [12, 1, 29] (Sure.admits (by decide)) (hroutes _) hyes
      (by simpa using hyseen) hy (by decide) fun token ht _ h => (hnext ht h hy hexit.1).recovers

theorem text_truthWord (b : Bool) :
    (if truthWord b = "TRUE" then "true" else "false") = if b then "true" else "false" := by
  cases b <;> rfl

theorem yields_property (b : Bool) : Yields propertiesRule (KindIs "keyword") ["\x7b",
      "case-sensitive", ":", truthWord b, "\x7d"] ⟨"properties", "", "",
      [.plain "case-sensitive" (if b then "true" else "false")], none⟩ rest := by
  refine yields (propertyLayout 25) rfl (fun _ _ _ _ h => template_of_kindIs h rfl) ?_
  rintro goal a c els els₀ ⟨base, layout, stop⟩ n ident parent outer rfl - - h - hdone
  refine h.take [] 11 [3] (Sure.admits (by decide)) rfl rfl (by decide) rfl (by decide)
    fun t₁ _ _ h => Reads.recovers ?_
  refine h.take [2] 4 [25] (Sure.admits (by decide)) rfl rfl (by decide) rfl (by decide)
    fun t₂ ht₂ _ h => Reads.recovers ?_
  refine h.take [] 5 [7] (Sure.admits (by decide)) rfl rfl (by decide) rfl (by decide)
    fun t₃ _ _ h => Reads.recovers ?_
  refine h.truth b [8] (y := 6) (fun _ => rfl) rfl rfl (by decide) (by decide) rfl rfl rfl
    (by decide) fun els t₄ ht₄ h => ?_
  refine h.take [3] 12 [4] (Sure.admits (by decide)) rfl rfl (by decide) rfl (by decide)
    fun t₅ _ _ h => Reads.recovers ?_
  refine h.follow [1] rfl fun h => hdone _ _ _ _ (le_refl c) h ?_
  rw [← text_truthWord, ← ht₂, ← ht₄]
  rfl

theorem yields_properties (first second : Bool) : Yields propertiesRule (KindIs "separator")
    ["\x7b", "is-pattern", ":", truthWord first, ",", "whitespace-allowed", ":", truthWord second,
      "\x7d"] ⟨"properties", "", "", [.plain "is-pattern" (if first then "true" else "false"),
      .plain "whitespace-allowed" (if second then "true" else "false")], none⟩ rest := by
  refine yields (propertiesLayout 24 26) rfl (fun _ _ _ _ h => template_of_kindIs h rfl) ?_
  rintro goal a c els els₀ ⟨base, layout, stop⟩ n ident parent outer rfl - - h - hdone
  refine h.take [] 17 [3] (Sure.admits (by decide)) rfl rfl (by decide) rfl (by decide)
    fun t₁ _ _ h => Reads.recovers ?_
  refine h.take [2] 4 [24] (Sure.admits (by decide)) rfl rfl (by decide) rfl (by decide)
    fun t₂ ht₂ _ h => Reads.recovers ?_
  refine h.take [] 5 [7] (Sure.admits (by decide)) rfl rfl (by decide) rfl (by decide)
    fun t₃ _ _ h => Reads.recovers ?_
  refine h.truth first [8] (y := 6) (fun _ => rfl) rfl rfl (by decide) (by decide) rfl rfl rfl
    (by decide) fun els t₄ ht₄ h => ?_
  refine h.take [3] 16 [8] (Sure.admits (by decide)) rfl rfl (by decide) rfl (by decide)
    fun t₅ _ _ h => Reads.recovers ?_
  refine h.take [2] 10 [26] (Sure.admits (by decide)) rfl rfl (by decide) rfl (by decide)
    fun t₆ ht₆ _ h => Reads.recovers ?_
  refine h.take [] 11 [7] (Sure.admits (by decide)) rfl rfl (by decide) rfl (by decide)
    fun t₇ _ _ h => Reads.recovers ?_
  refine h.truth second [14] (y := 12) (fun _ => rfl) rfl rfl (by decide) (by decide) rfl rfl rfl
    (by decide) fun els t₈ ht₈ h => ?_
  refine h.take [3] 18 [4] (Sure.admits (by decide)) rfl rfl (by decide) rfl (by decide)
    fun t₉ _ _ h => Reads.recovers ?_
  refine h.follow [1] rfl fun h => hdone _ _ _ _ (le_refl c) h ?_
  rw [← text_truthWord first, ← text_truthWord second, ← ht₂, ← ht₄, ← ht₆, ← ht₈]
  rfl

theorem yields_flaggedDecl {rule : Nat} (keyword : Nat) (kind : String)
    (hrule : grammar.rule? rule = some (tokenRule kind (typeAt keyword)))
    (hlayout : (tokenBody kind (typeAt keyword)).template = (flaggedLayout keyword).graph)
    (hkind : Sure kind [keyword, 27, 29]) (hfits : fits (typeAt keyword).kind kind = true)
    {name : String} (hname : isTokenName name = true) (text : String) {words : List String}
    {flags : List Tree}
    (hflags : ∀ {rest}, Yields propertiesRule (KindIs kind) ("\x7b" :: words)
      ⟨"properties", "", "", flags, none⟩ rest) :
    Yields rule Anywhere (kind :: name :: quote text :: "\x7b" :: (words ++ [";"]))
      ⟨kind, "", "",
        [.plain "id" name, .plain "value" text, ⟨"properties", "", "", flags, none⟩], none⟩
      rest := by
  refine yields (flaggedLayout keyword) rfl
    (fun _ _ _ _ _ => ⟨fun _ => tokenBody kind (typeAt keyword), ?_, fun _ => hlayout⟩) ?_
  · rw [Grammar.expand?, hrule]
    rfl
  rintro goal a b els els₀ ⟨base, layout, stop⟩ n ident parent outer rfl - - h hwithin hdone
  have hpush {els : List PathElement} {i : Nat} {type : Nat} {ident : Option String}
      {links : List Nat} {t : Option Token} (hwithin : Within b els rule)
      (hi : (flaggedLayout keyword)[i]? = some (.slot type ident, links)) :
      Within b (⟨base + i, t⟩ :: els) rule :=
    hwithin.push (.inr ⟨_, _, kind_of_holds h.holds hi⟩)
  show Reads _ _ _ _ (kind :: name :: quote text :: "\x7b" :: (words ++ [";"] ++ rest))
  rw [List.append_assoc, List.singleton_append]
  refine h.take [] 2 _ hkind.admits rfl rfl (by decide) rfl hfits fun t₁ _ _ h => Reads.recovers ?_
  refine h.take [] 3 _ (admits_tokenName hname) rfl rfl (by decide) rfl
    ((accepts_tokenName name).trans hname) fun t₂ ht₂ _ h => Reads.recovers ?_
  refine h.take [] 5 _ (admits_quote text) rfl rfl (by decide) rfl (isLiteralText_quote text)
    fun t₃ ht₃ _ h => Reads.recovers ?_
  refine h.call ("\x7b" :: words) [8] 7 [3] (Sure.admits (by decide)) At.open_end rfl rfl
    (by decide) rfl rfl (by simp) (by simp) hflags ?_ fun c els' hle h => ?_
  · have hslots := hpush (t := some t₃)
      (i := 5) (hpush (t := some t₂) (i := 3) (hpush (t := some t₁) (i := 2) hwithin rfl) rfl) rfl
    refine kindIs_of_within (hslots.push (.inl (kind_of_holds h.holds (i := 8) rfl)))
      (kind_of_holds h.holds (i := 7) rfl) ?_
    rw [Grammar.ruleVars, hrule]
    rfl
  refine h.take [9] 4 [11] (Sure.admits (by decide)) rfl rfl (by decide) rfl (by decide)
    fun t₄ _ _ h => Reads.recovers ?_
  refine h.follow [1] rfl fun h => hdone _ _ _ _ hle h ?_
  rw [transformed_of_rule hrule rfl, ← unquote_quote text, ← ht₂, ← ht₃]
  rfl

/-- The rule of a declaration. -/
def declRule (d : TokenDecl) : RuleId :=
  match d.form with
  | .keyword .. => 3
  | .word _ => 4
  | .leading _ => 5
  | .trailing _ => 6
  | .separator .. => 7
  | .literal => 8

/-- The declaration of a token type is read by its rule. -/
theorem yields_tokenDecl (d : TokenDecl) (hname : isTokenName d.name = true) :
    Yields (declRule d) Anywhere d.words d.tree rest := by
  obtain ⟨name, form⟩ := d
  cases form with
  | keyword text caseSensitive =>
    exact yields_flaggedDecl 14 "keyword" rfl rfl (by decide) (by decide) hname text
      (yields_property caseSensitive)
  | word text => exact yields_valueDecl 15 "word" rfl rfl (by decide) (by decide) hname text
  | leading text => exact yields_valueDecl 16 "prefix" rfl rfl (by decide) (by decide) hname text
  | trailing text => exact yields_valueDecl 17 "postfix" rfl rfl (by decide) (by decide) hname text
  | separator text isPattern whitespaceAllowed =>
    exact yields_flaggedDecl 18 "separator" rfl rfl (by decide) (by decide) hname text
      (yields_properties isPattern whitespaceAllowed)
  | literal => exact yields_literal hname

end GrammarGraph.Meta
