import GrammarGraph.Proofs.Casing
import GrammarGraph.Proofs.Declaring
import GrammarGraph.Proofs.Origins
import GrammarGraph.Proofs.Tokens
import GrammarGraph.Proofs.WellFormedness

/-!
# What the types of a token say of its text

A type stands on a token because of the text (`Token.ClassedBy`): a literal, a marker and a
separator stand alone on theirs, and any other token carries at most one keyword and all words that
accept the text.  The look-up of a keyword, first as the text stands and then in upper case, finds
one exactly if one accepts the text (`Lexer.isSome_keyword?_iff`).  Where nothing accepts a text, it
is unknown, and the other way round.  Main statement: `Stream.truthful_results`, for types as the
registry makes them, such as all types of a definition's grammar (`Definition.declares_of_grammar`).
-/

namespace GrammarGraph

/-! ## Markers next to a text -/

namespace TokenKind

variable {kind : TokenKind} {text : List Char}

/-- A leading marker is recognized where there is something right of it. -/
theorem accepts_iff_of_isLeading (hkind : kind.isLeading = true) :
    kind.accepts text = true ↔ (kind.remainingRight? text).isSome = true := by
  cases kind with
  | leading marker =>
    show (Option.isSome _ = true) ↔ _
    rw [remainingRight?]
    cases hfind : (Pattern.leading marker.toList).find text with
    | none => simp
    | some m =>
      obtain ⟨rest, -, -, -, hrest⟩ := Pattern.exists_of_find_leading hfind
      simp [hrest]
  | _ => exact absurd hkind Bool.false_ne_true

theorem accepts_iff_of_isTrailing (hkind : kind.isTrailing = true) :
    kind.accepts text = true ↔ (kind.remainingLeft? text).isSome = true := by
  cases kind with
  | trailing marker =>
    show (Option.isSome _ = true) ↔ _
    rw [remainingLeft?]
    cases hfind : (Pattern.trailing marker.toList).find text with
    | none => simp
    | some m =>
      obtain ⟨rest, -, -, -, hrest⟩ := Pattern.exists_of_find_trailing hfind
      simp [hrest]
  | _ => exact absurd hkind Bool.false_ne_true

/-- A keyword accepts the text that it stores, if that is in upper case whenever case does not
count. -/
theorem Declared.accepts_of_keyword? (h : kind.Declared)
    (hkeyword : kind.keyword? = some (.ofList text)) : kind.accepts text = true := by
  cases h with
  | keyword => exact beq_iff_eq.mpr (Option.some.inj hkeyword).symm
  | keywordAnyCase =>
    refine beq_iff_eq.mpr ?_
    rw [← Option.some.inj hkeyword, Text.upper_upper]
  | _ => exact absurd hkeyword nofun

/-- A keyword that accepts a text stores it, as it stands or in upper case. -/
theorem keyword?_of_accepts (hkind : kind.isKeyword = true) (h : kind.accepts text = true) :
    kind.keyword? = some (.ofList text) ∨ kind.keyword? = some (Text.upper (.ofList text)) := by
  cases kind with
  | keyword stored caseSensitive =>
    cases caseSensitive with
    | true => exact .inl (congrArg some (eq_of_beq h).symm)
    | false => exact .inr (congrArg some (eq_of_beq h).symm)
  | _ => exact absurd hkind nofun

end TokenKind

/-! ## The types of a grammar -/

namespace Definition

theorem declares_declareTokens : ∀ {decls : List TokenDecl} {r r' : Registry} {s s' : Symbols},
    r.Declares → declareTokens decls r s = .ok (r', s') → r'.Declares
  | [], _, _, _, _, h, heq => by
    cases heq
    exact h
  | _ :: _, _, _, _, _, h, heq => by
    obtain ⟨_, _, _, hdeclare, -, hrest⟩ := exists_of_declareTokens_cons heq
    exact declares_declareTokens (declares_of_declare h hdeclare) hrest

theorem declares_declareQuoted : ∀ (texts : List String) {r : Registry} {s : Symbols},
    r.Declares → (declareQuoted texts r s).1.Declares
  | [], _, _, h => h
  | text :: texts, _, _, h => by
    rw [declareQuoted]
    split
    · exact declares_declareQuoted texts h
    · exact declares_declareQuoted texts (h.add .keyword trivial)

/-- The types of a definition's grammar are declared, those of the quoted texts among them. -/
theorem declares_of_grammar {d : Definition} {g : Grammar} (h : d.grammar = .ok g) :
    g.types.Declares := by
  obtain ⟨⟨types, symbols⟩, htokens, h⟩ := exists_of_bind_eq_ok h
  have htypes := declares_declareQuoted (Item.quotedInBranches (d.rules.flatMap (·.branches)))
    (s := symbols) (declares_declareTokens Registry.declares_empty htokens)
  obtain ⟨root, -, h⟩ := exists_of_bind_eq_ok h
  obtain ⟨symbols', -, h⟩ := exists_of_bind_eq_ok h
  obtain ⟨rules, -, h⟩ := exists_of_bind_eq_ok h
  split at h
  · obtain rfl := Except.ok.inj h
    exact htypes
  · cases h

end Definition

/-! ## Lexers that know their types -/

namespace Lexer

variable {lx : Lexer} {types : List TokenType} {text : List Char}

theorem mem_insertByLength_of {t u : TokenType} {old : List TokenType} (h : t = u ∨ t ∈ old) :
    t ∈ insertByLength u old := by
  induction old with
  | nil => exact List.mem_singleton.mpr (h.resolve_right List.not_mem_nil)
  | cons v old ih =>
    rw [insertByLength]
    split
    · exact List.mem_cons.mpr h
    · rcases h with h | h
      · exact List.mem_cons_of_mem v (ih (.inl h))
      · rcases List.mem_cons.mp h with rfl | h
        · exact List.mem_cons_self
        · exact List.mem_cons_of_mem v (ih (.inr h))

/-- The lexer has the types of the list, and no marker and no literal among them is left out. -/
structure Knows (lx : Lexer) (types : List TokenType) : Prop where
  sorts : lx.Sorts types
  literal : ∀ t ∈ types, t.kind.isLiteral = true → lx.literal.isSome = true
  leading : ∀ t ∈ types, t.kind.isLeading = true → t ∈ lx.leading
  trailing : ∀ t ∈ types, t.kind.isTrailing = true → t ∈ lx.trailing

theorem Knows.add (h : lx.Knows types) (t : TokenType) : (lx.add t).Knows (types ++ [t]) := by
  have hcases : ∀ {P : TokenType → Prop}, (∀ u ∈ types, P u) → P t → ∀ u ∈ types ++ [t], P u :=
    fun hold ht =>
    List.forall_mem_append.mpr ⟨hold, List.forall_mem_singleton.mpr ht⟩
  refine ⟨h.sorts.add t, ?_, ?_, ?_⟩ <;> unfold Lexer.add <;> split <;> next hkind =>
    first
      | exact hcases h.literal (by rw [hkind]; exact nofun)
      | exact hcases h.leading (by rw [hkind]; exact nofun)
      | exact hcases h.trailing (by rw [hkind]; exact nofun)
      | exact fun _ _ _ => rfl
      | exact hcases (fun u hu hu' => mem_insertByLength_of (.inr (h.leading u hu hu')))
          fun _ => mem_insertByLength_of (.inl rfl)
      | exact hcases (fun u hu hu' => mem_insertByLength_of (.inr (h.trailing u hu hu')))
          fun _ => mem_insertByLength_of (.inl rfl)

theorem knows_ofTypes (types : List TokenType) : (ofTypes types).Knows types := by
  induction types using List.reverseRecOn with
  | nil => exact ⟨sorts_ofTypes [], nofun, nofun, nofun⟩
  | append_singleton types t ih =>
    rw [ofTypes_concat]
    exact ih.add t

/-! ## Keywords and words -/

/-- A keyword that is found accepts the text. -/
theorem of_keyword? (hlx : lx.Knows types) (hdeclared : ∀ t ∈ types, t.kind.Declared)
    {t : TokenType} (h : lx.keyword? text = some t) :
    t ∈ types ∧ t.kind.isKeyword = true ∧ t.kind.accepts text = true := by
  have hfiled : t ∈ lx.keywords → t ∈ types ∧ t.kind.isKeyword = true := by
    rw [hlx.sorts.keywords, List.mem_filter]
    exact id
  rcases Option.or_eq_some_iff.mp h with hexact | ⟨-, hupper⟩
  · obtain ⟨hmem, hkind⟩ := hfiled (List.mem_of_find?_eq_some hexact)
    have hstored : (t.kind.keyword? == some (String.ofList text)) = true :=
      List.find?_some (p := fun t : TokenType => t.kind.keyword? ==
        some (String.ofList text)) hexact
    exact ⟨hmem, hkind, (hdeclared t hmem).accepts_of_keyword? (eq_of_beq hstored)⟩
  · obtain ⟨hmem, hkind⟩ := hfiled (List.mem_of_find?_eq_some hupper)
    have hstored :
        (t.kind.keyword? == some (Text.upper (String.ofList text)) && t.kind.accepts text) = true :=
      List.find?_some (p := fun t : TokenType =>
        t.kind.keyword? == some (Text.upper (String.ofList text)) && t.kind.accepts text) hupper
    exact ⟨hmem, hkind, (Bool.and_eq_true _ _ ▸ hstored).2⟩

/-- Where no keyword is found none accepts the text. -/
theorem not_accepts_of_keyword?_eq_none (hlx : lx.Knows types) (h : lx.keyword? text = none) :
    ∀ t ∈ types, t.kind.isKeyword = true → t.kind.accepts text = false := by
  intro t ht hkind
  have hmem : t ∈ lx.keywords := by
    rw [hlx.sorts.keywords]
    exact List.mem_filter.mpr ⟨ht, hkind⟩
  obtain ⟨hexact, hupper⟩ := Option.or_eq_none_iff.mp h
  refine Bool.eq_false_iff.mpr fun haccepts => ?_
  rcases TokenKind.keyword?_of_accepts hkind haccepts with hstored | hstored
  · exact List.find?_eq_none.mp hexact t hmem (beq_iff_eq.mpr hstored)
  · exact List.find?_eq_none.mp hupper t hmem
      (Bool.and_eq_true _ _ ▸ ⟨beq_iff_eq.mpr hstored, haccepts⟩)

/-- The look-up of a keyword and the types themselves agree on which texts are keywords. -/
theorem isSome_keyword?_iff (hlx : lx.Knows types) (hdeclared : ∀ t ∈ types, t.kind.Declared) :
    (lx.keyword? text).isSome = true ↔ ∃ t ∈ types, t.kind.isKeyword = true ∧
      t.kind.accepts text = true := by
  constructor
  · intro h
    obtain ⟨t, ht⟩ := Option.isSome_iff_exists.mp h
    exact ⟨t, of_keyword? hlx hdeclared ht⟩
  · rintro ⟨t, ht, hkind, haccepts⟩
    cases h : lx.keyword? text with
    | some _ => rfl
    | none =>
      exact absurd (not_accepts_of_keyword?_eq_none hlx h t ht hkind)
          (by rw [haccepts]; exact nofun)

theorem Knows.setLineComment (h : lx.Knows types) (marker : String) :
    (lx.setLineComment marker).Knows types where
  __ := h
  sorts := { h.sorts with }

theorem Knows.setBlockComment (h : lx.Knows types) (start stop : String) :
    (lx.setBlockComment start stop).Knows types where
  __ := h
  sorts := { h.sorts with }

theorem Knows.setTabSize (h : lx.Knows types) (tabSize : UInt64) :
    (lx.setTabSize tabSize).Knows types where
  __ := h
  sorts := { h.sorts with }

end Lexer

/-! ## Classes of tokens -/

/-- What the text of a token is like that has a type of this kind and no other. -/
def TokenKind.MadeOf : TokenKind → List Char → Prop
  | literal, text => isLiteralText text = true
  | leading marker, text | trailing marker, text | separator marker _, text => text = marker.toList
  | patternSeparator .., _ => True
  | word .., _ | keyword .., _ => False

/-- The types of a token are one for its text alone, or perhaps a keyword that accepts the text and
behind it the words that do, in the order of the list. -/
inductive Token.ClassedBy (types : List TokenType) (token : Token) : Prop
  | alone {t : TokenType} : t ∈ types → token.types = [t] → t.kind.MadeOf token.text.toList →
      ClassedBy types token
  | plain (keyword : Option TokenType) :
      token.types = keyword.toList ++ types.filter (fun t => t.kind.isWord &&
        t.kind.accepts token.text.toList) →
      (∀ t ∈ keyword, t ∈ types ∧ t.kind.isKeyword = true ∧
        t.kind.accepts token.text.toList = true) →
      (keyword.isSome = true ↔ ∃ t ∈ types, t.kind.isKeyword = true ∧
        t.kind.accepts token.text.toList = true) → ClassedBy types token

/-- No type that is not a separator accepts the text. -/
def Unrecognized (types : List TokenType) (text : List Char) : Prop :=
  ∀ t ∈ types, t.kind.isSeparator = false → t.kind.accepts text = false

namespace Lexer

variable {lx : Lexer} {types : List TokenType} {text : List Char}
  {within : List Char → Position → Except UnknownSpan (List Token)}

/-- All tokens are classed by the types, or nothing recognizes the text for which there is none. -/
def Classed (types : List TokenType) : Except UnknownSpan (List Token) → Prop :=
  Outcome (fun tokens => ∀ token ∈ tokens, token.ClassedBy types) fun unknown =>
    Unrecognized types unknown.text

theorem classedBy_alone {t : TokenType} (ht : t ∈ types) (htext : t.kind.MadeOf text)
    (before : Position) : (lx.token text [t] before).ClassedBy types :=
  .alone ht rfl (by rw [token, String.toList_ofList]; exact htext)

/-- What none of the look-ups finds anything for no type recognizes. -/
theorem unrecognized_of_plainTypes (hlx : lx.Knows types)
    (hliteral : lx.literal.filter (fun _ => isLiteralText text) = none)
    (hleading : ∀ t ∈ lx.leading, t.kind.remainingRight? text = none)
    (htrailing : ∀ t ∈ lx.trailing, t.kind.remainingLeft? text = none)
    (hplain : lx.plainTypes text = []) : Unrecognized types text := by
  obtain ⟨hkeyword, hwords⟩ := List.append_eq_nil_iff.mp hplain
  intro t ht hsep
  refine Bool.eq_false_iff.mpr fun haccepts => ?_
  cases hkind : t.kind with
  | word =>
    have hmem : t ∈ lx.words := by
      rw [hlx.sorts.words, List.mem_filter, hkind]
      exact ⟨ht, rfl⟩
    exact List.filter_eq_nil_iff.mp hwords t hmem haccepts
  | keyword =>
    have hnone := not_accepts_of_keyword?_eq_none hlx (Option.toList_eq_nil_iff.mp hkeyword) t ht
      (by rw [hkind]; rfl)
    exact Bool.false_ne_true (hnone.symm.trans haccepts)
  | literal =>
    obtain ⟨u, hu⟩ := Option.isSome_iff_exists.mp (hlx.literal t ht (by rw [hkind]; rfl))
    rw [hkind, TokenKind.accepts] at haccepts
    rw [hu, Option.filter_some, if_pos haccepts] at hliteral
    exact Option.some_ne_none u hliteral
  | leading =>
    have hknown : t.kind.isLeading = true := by rw [hkind]; rfl
    have hsome := (TokenKind.accepts_iff_of_isLeading hknown).mp haccepts
    rw [hleading t (hlx.leading t ht hknown)] at hsome
    exact Bool.false_ne_true hsome
  | trailing =>
    have hknown : t.kind.isTrailing = true := by rw [hkind]; rfl
    have hsome := (TokenKind.accepts_iff_of_isTrailing hknown).mp haccepts
    rw [htrailing t (hlx.trailing t ht hknown)] at hsome
    exact Bool.false_ne_true hsome
  | separator | patternSeparator =>
    rw [hkind] at hsep
    exact Bool.false_ne_true hsep.symm

theorem forall_eq_none_of_findSome? {list : List TokenType}
    {cutOff : TokenType → Option (List Char)}
    (h : list.findSome? (fun t => (cutOff t).map (t, ·)) = none) :
    ∀ t ∈ list, cutOff t = none := fun t ht =>
  Option.map_eq_none_iff.mp (List.findSome?_eq_none_iff.mp h t ht)

section

variable (hlx : lx.Knows types) (hdeclared : ∀ t ∈ types, t.kind.Declared)

include hlx hdeclared

theorem classedBy_plainTypes (text : List Char) (before : Position) :
    (lx.token text (lx.plainTypes text) before).ClassedBy types := by
  have htext : (lx.token text (lx.plainTypes text) before).text.toList = text :=
    String.toList_ofList
  refine .plain (lx.keyword? text) ?_ (fun t ht => ?_) ?_
  · rw [htext]
    show lx.plainTypes text = _
    rw [plainTypes, hlx.sorts.words, List.filter_filter]
    simp only [Bool.and_comm]
  · rw [htext]
    exact of_keyword? hlx hdeclared ht
  · rw [htext]
    exact isSome_keyword?_iff hlx hdeclared

theorem classed_classifySpan (hwithin : ∀ text before, Classed types (within text before))
    (text : List Char) (before : Position) :
    Classed types (lx.classifySpan within text before) := by
  unfold classifySpan
  split
  · next t ht =>
    obtain ⟨ht, hliteral⟩ := Option.filter_eq_some_iff.mp ht
    obtain ⟨hmem, hkind⟩ := hlx.sorts.literal t ht
    refine List.forall_mem_singleton.mpr (classedBy_alone hmem ?_ before)
    cases hk : t.kind with
    | literal => exact hliteral
    | _ => rw [hk] at hkind; exact absurd hkind nofun
  · next hliteral =>
    split
    · next t rest hfind =>
      obtain ⟨ht, hrest⟩ := exists_of_findSome? hfind
      obtain ⟨marker, hkind, rfl, -⟩ := TokenKind.exists_of_remainingRight? hrest
      refine Outcome.map (hwithin rest _) fun tokens htokens =>
        List.forall_mem_cons.mpr ⟨?_, htokens⟩
      refine classedBy_alone (hlx.sorts.leading t ht).1 ?_ before
      rw [hkind, List.length_append, Nat.add_sub_cancel, List.take_left]
      rfl
    · next hleading =>
      split
      · next t rest hfind =>
        obtain ⟨ht, hrest⟩ := exists_of_findSome? hfind
        obtain ⟨marker, hkind, rfl, -⟩ := TokenKind.exists_of_remainingLeft? hrest
        refine Outcome.map (hwithin rest _) fun tokens htokens =>
          List.forall_mem_append.mpr ⟨htokens, ?_⟩
        refine List.forall_mem_singleton.mpr (classedBy_alone (hlx.sorts.trailing t ht).1 ?_ _)
        rw [hkind, List.drop_left]
        rfl
      · next htrailing =>
        split
        · next hplain =>
          exact unrecognized_of_plainTypes hlx hliteral (forall_eq_none_of_findSome? hleading)
            (forall_eq_none_of_findSome? htrailing) hplain
        · exact List.forall_mem_singleton.mpr (classedBy_plainTypes hlx hdeclared text before)

theorem classed_classifySpans (hwithin : ∀ text before, Classed types (within text before))
    {spans : List Span} (hspans : spans ⊆ lx.splitter.split text) (before : Position) :
    Classed types (lx.classifySpans within spans before) := by
  induction spans generalizing before with
  | nil => exact fun _ h => absurd h List.not_mem_nil
  | cons s spans ih =>
    obtain ⟨hs, hrest⟩ := List.cons_subset.mp hspans
    have happend {first : Except UnknownSpan (List Token)} (hfirst : Classed types first) :
        Classed types (do
          let tokens ← first
          let more ← lx.classifySpans within spans (before.advanceOver lx.tabSize s.text)
          return tokens ++ more) :=
      Outcome.bind hfirst fun tokens _ htokens => Outcome.bind (ih hrest _) fun more _ hmore =>
        List.forall_mem_append.mpr ⟨htokens, hmore⟩
    rw [classifySpans]
    cases hsep : s.separator with
    | some sep =>
      obtain ⟨hmem, hmarker⟩ := Splitter.separator_of_mem_split hs hsep
      obtain ⟨hknown, hkind⟩ := hlx.sorts.separators sep hmem
      refine happend (List.forall_mem_singleton.mpr (classedBy_alone hknown ?_ before))
      cases hk : sep.kind with
      | separator marker tight => exact hmarker marker tight hk
      | patternSeparator => trivial
      | _ => rw [hk] at hkind; exact absurd hkind Bool.false_ne_true
    | none => exact happend (classed_classifySpan hlx hdeclared hwithin s.text before)

theorem classed_classify (text : List Char) (before : Position) :
    Classed types (lx.classify text before) := by
  have hlevels : ∀ (fuel : Nat) (text : List Char)
      (before : Position), Classed types (lx.classifyText fuel text before) := by
    intro fuel
    induction fuel with
    | zero => exact fun _ _ _ h => absurd h List.not_mem_nil
    | succ fuel ih =>
      exact fun text before => classed_classifySpans hlx hdeclared ih (List.Subset.refl _) before
  exact hlevels _ text before

end

end Lexer

/-! ## Tokens of a text -/

/-- The types of a token say of its text what they stand for. -/
structure Token.Truthful (types : List TokenType) (token : Token) : Prop where
  mem : ∀ t ∈ token.types, t ∈ types
  /-- A literal is nothing else. -/
  literal : ∀ t ∈ token.types, t.kind = .literal → token.types = [t] ∧
    isLiteralText token.text.toList = true
  /-- Nor is a marker, which is all there is of its token. -/
  marker : ∀ t ∈ token.types, ∀ marker tight,
    t.kind = .leading marker ∨ t.kind = .trailing marker ∨ t.kind = .separator marker tight →
      token.types = [t] ∧ token.text = marker
  /-- Where there is neither and no pattern separates, there is at most one keyword, in front of all
  words that accept the text. -/
  plain : (∀ t ∈ token.types, t.kind.isLiteral = false ∧ t.kind.isLeading = false ∧
    t.kind.isTrailing = false ∧ t.kind.isSeparator = false) →
    ∃ keyword : Option TokenType,
      token.types = keyword.toList ++ types.filter (fun t => t.kind.isWord &&
        t.kind.accepts token.text.toList) ∧ (∀ t ∈ keyword, t.kind.isKeyword = true) ∧
      ((∃ t ∈ token.types, t.kind.isKeyword = true) ↔
        ∃ t ∈ types, t.kind.isKeyword = true ∧ t.kind.accepts token.text.toList = true)

theorem TokenKind.isKeyword_eq_false {kind : TokenKind} (h : kind.isWord = true) :
    kind.isKeyword = false := by
  cases kind with
  | word => rfl
  | _ => exact absurd h nofun

theorem Token.ClassedBy.truthful {types : List TokenType} {token : Token}
    (h : token.ClassedBy types) : token.Truthful types := by
  cases h with
  | @alone t ht htypes hmade =>
    have hone : ∀ u ∈ token.types, u = t := fun u hu => List.mem_singleton.mp (htypes ▸ hu)
    have hself : t ∈ token.types := htypes ▸ List.mem_cons_self
    constructor
    · exact fun u hu => hone u hu ▸ ht
    · intro u hu hkind
      obtain rfl := hone u hu
      rw [hkind] at hmade
      exact ⟨htypes, hmade⟩
    · intro u hu marker tight hkind
      obtain rfl := hone u hu
      refine ⟨htypes, String.toList_inj.mp ?_⟩
      rcases hkind with hkind | hkind | hkind <;> rw [hkind] at hmade <;> exact hmade
    · intro hnone
      obtain ⟨hliteral, hleading, htrailing, hseparator⟩ := hnone t hself
      cases hkind : t.kind with
      | word | keyword => rw [hkind] at hmade; exact hmade.elim
      | literal => rw [hkind] at hliteral; exact absurd hliteral nofun
      | leading => rw [hkind] at hleading; exact absurd hleading nofun
      | trailing => rw [hkind] at htrailing; exact absurd htrailing nofun
      | separator | patternSeparator => rw [hkind] at hseparator; exact absurd hseparator nofun
  | plain keyword htypes hkeyword hiff =>
    have hmem : ∀ u ∈ token.types, u ∈ types ∧
        (u.kind.isKeyword = true ∧ u ∈ keyword ∨ u.kind.isWord = true) := by
      intro u hu
      rw [htypes, List.mem_append, Option.mem_toList, List.mem_filter, Bool.and_eq_true] at hu
      rcases hu with hu | ⟨hu, hword, -⟩
      · exact ⟨(hkeyword u hu).1, .inl ⟨(hkeyword u hu).2.1, hu⟩⟩
      · exact ⟨hu, .inr hword⟩
    -- keywords and words are neither literals nor markers
    have hnot : ∀ u ∈ token.types, ∀ {P : Prop}, u.kind.isKeyword = false ∧
        u.kind.isWord = false → P := by
      intro u hu P hno
      rcases (hmem u hu).2 with ⟨hyes, -⟩ | hyes
      · exact absurd (hno.1.symm.trans hyes) nofun
      · exact absurd (hno.2.symm.trans hyes) nofun
    constructor
    · exact fun u hu => (hmem u hu).1
    · exact fun u hu hkind => hnot u hu (by rw [hkind]; exact ⟨rfl, rfl⟩)
    · intro u hu marker tight hkind
      rcases hkind with hkind | hkind | hkind <;> exact hnot u hu (by rw [hkind]; exact ⟨rfl, rfl⟩)
    · refine fun _ => ⟨keyword, htypes, fun t ht => (hkeyword t ht).2.1, Iff.trans ?_ hiff⟩
      rw [Option.isSome_iff_exists]
      constructor
      · rintro ⟨u, hu, hkind⟩
        rcases (hmem u hu).2 with ⟨-, hu⟩ | hword
        · exact ⟨u, hu⟩
        · exact absurd (TokenKind.isKeyword_eq_false hword ▸ hkind) nofun
      · rintro ⟨t, ht⟩
        exact ⟨t, htypes ▸ List.mem_append_left _ (Option.mem_toList.mpr ht), (hkeyword t ht).2.1⟩

namespace Stream

variable {lx : Lexer} {types : List TokenType}

/-- A token that is classed by the types, or an error for a text that no type recognizes but
perhaps as a separator. -/
def Classed (types : List TokenType) : Except ParseError Token → Prop :=
  Outcome (fun token => token.ClassedBy types)
    fun e => ∃ text location, e = .unknownToken text location ∧ Unrecognized types text.toList

/-- What a text comes to: a token whose types say of its text what they stand for, or an error for a
text that no type recognizes but perhaps as a separator. -/
def Truthful (types : List TokenType) : Except ParseError Token → Prop :=
  Outcome (fun token => token.Truthful types)
    fun e => ∃ text location, e = .unknownToken text location ∧ Unrecognized types text.toList

variable (hlx : lx.Knows types) (hdeclared : ∀ t ∈ types, t.kind.Declared)

include hlx hdeclared

theorem classed_ofChunk (source : Option String) (chunk : Chunk) :
    ∀ result ∈ ofChunk lx source chunk, Classed types result := by
  have hclassed := Lexer.classed_classify hlx hdeclared chunk.text chunk.before
  intro result hresult
  unfold ofChunk at hresult
  split at hresult
  · next unknown hclassify =>
    obtain rfl := List.mem_singleton.mp hresult
    rw [hclassify] at hclassed
    refine ⟨_, _, rfl, ?_⟩
    rw [String.toList_ofList]
    exact hclassed
  · next tokens hclassify =>
    obtain ⟨token, htoken, rfl⟩ := List.mem_map.mp hresult
    rw [hclassify] at hclassed
    exact hclassed token htoken

theorem classed_drain (fuel : Nat) (s : Stream) :
    ∀ result ∈ (s.drain lx fuel).1, Classed types result := by
  induction fuel generalizing s with
  | zero => exact fun _ h => absurd h List.not_mem_nil
  | succ fuel ih =>
    rw [drain]
    split
    · exact fun _ h => absurd h List.not_mem_nil
    · next chunk t _ =>
        exact List.forall_mem_append.mpr ⟨classed_ofChunk hlx hdeclared _ chunk, ih t⟩

theorem truthful_drain (fuel : Nat) (s : Stream) :
    ∀ result ∈ (s.drain lx fuel).1, Truthful types result := fun result hresult =>
  (classed_drain hlx hdeclared fuel s result hresult).mono
    (fun _ => Token.ClassedBy.truthful) fun _ => id

/-- The tokens of a text are classed by the types of the lexer. -/
theorem classed_tokenizeFrom {text : List Char} {source : Option String} {tokens : List Token}
    (h : lx.tokenizeFrom text source = .ok tokens) : ∀ token ∈ tokens, token.ClassedBy types := by
  intro token htoken
  have hresults := mapM_id_eq_ok.mp h
  rw [fst_results_of_pending_nil lx rfl] at hresults
  have hmem : (.ok token : Except ParseError Token) ∈ tokens.map .ok := List.mem_map_of_mem htoken
  rw [← hresults] at hmem
  exact classed_drain hlx hdeclared _ _ _ hmem

/-- Token types tell the truth, whatever the text. -/
theorem truthful_results (text : List Char) (source : Option String) :
    ∀ result ∈ ((lx.stream text source).results lx).1, Truthful types result := by
  rw [fst_results_of_pending_nil lx rfl]
  exact truthful_drain hlx hdeclared _ _

end Stream

namespace Sample

def conditionTypes : List TokenType :=
  [⟨1, .validWord "[a-z]+" (by decide)⟩, ⟨2, .keyword (Text.upper "if") false⟩,
    ⟨3, .keyword "if" true⟩, ⟨4, .leading "-"⟩, ⟨5, .literal⟩]

/-- Words and literals, perhaps with a dash in front, and a keyword with and
without regard to case. -/
def condition : Lexer := (Lexer.ofTypes conditionTypes).setLineComment "#"

theorem declared_conditionTypes : ∀ t ∈ conditionTypes, t.kind.Declared := by
  simp only [conditionTypes, List.forall_mem_cons]
  exact ⟨.word, .keywordAnyCase, .keyword, .leading, .literal, fun _ h => absurd h List.not_mem_nil⟩

theorem truthful_results_condition :
    condition.Knows conditionTypes ∧ (∀ t ∈ conditionTypes, t.kind.Declared) ∧
    ((condition.stream "if IF -x 'y' ? # z".toList none).results condition).1.map (fun result =>
        (result.toOption.map fun token => (token.text, token.types.map (·.id)))) =
      [some ("if", [3, 1]), some ("IF", [2]), some ("-", [4]), some ("x", [1]),
        some ("'y'", [5]), none] ∧
    ∀ result ∈ ((condition.stream "if IF -x 'y' ? # z".toList none).results condition).1,
      Stream.Truthful conditionTypes result :=
  have hknows := (Lexer.knows_ofTypes conditionTypes).setLineComment "#"
  ⟨hknows, declared_conditionTypes, by decide +kernel,
    Stream.truthful_results hknows declared_conditionTypes "if IF -x 'y' ? # z".toList none⟩

end Sample

end GrammarGraph
