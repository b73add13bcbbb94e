import GrammarGraph.Proofs.WellFormedness
import GrammarGraph.Proofs.Words
import GrammarGraph.Proofs.Placing

/-!
# Quoted keywords

A quoted text in a rule is wired as a slot of a keyword type in which case counts.  The lexer gives
a text at most one keyword, the first one that is stored as the text, be it one in which case counts
or not.  The two agree unless a keyword in which case does not count is declared before all others
that are stored as the text (`Definition.matched_iff_of_quoted`).

What the registry and the names of a definition have in common is kept by every
declaration (`Registers`): types are numbered in their order, and the keyword for a text
is the first one in which case counts.
-/

namespace GrammarGraph

/-- The stored text of a keyword, with whether case counts. -/
def TokenKind.spelling? : TokenKind → Option (String × Bool)
  | keyword stored caseSensitive => some (stored, caseSensitive)
  | _ => none

/-- The text that a declared keyword is stored as, with whether case counts. -/
def TokenForm.spelling? : TokenForm → Option (String × Bool)
  | .keyword text true => some (text, true)
  | .keyword text false => some (Text.upper text, false)
  | _ => none

/-- The texts that the declared keywords are stored as, in their order. -/
def Definition.spellings (d : Definition) : List (String × Bool) :=
  d.tokens.filterMap (·.form.spelling?)

theorem TokenKind.keyword?_eq (kind : TokenKind) : kind.keyword? = kind.spelling?.map (·.1) := by
  cases kind <;> rfl

theorem TokenKind.isKeyword_of_keyword? {kind : TokenKind} {text : String}
    (h : kind.keyword? = some text) : kind.isKeyword = true ∧ kind.isWord = false := by
  cases kind with
  | keyword => exact ⟨rfl, rfl⟩
  | _ => exact absurd h nofun

/-! ## Declarations -/

/-- Types with these spellings are numbered in their order, and the keyword for a text is the first
one with the text in which case counts. -/
structure Registers (spellings : List (String × Bool)) (r : Registry) (s : Symbols) : Prop where
  ids : r.types.map (·.id) = List.range' 1 r.size
  spellings : r.types.filterMap (·.kind.spelling?) = spellings
  keywords : ∀ text, s.keywords.lookup text = r.types.find? (·.kind.spelling? == some (text, true))

namespace Registers

variable {spellings : List (String × Bool)} {r r' : Registry} {s s' : Symbols}

theorem nil : Registers [] {} {} := ⟨rfl, rfl, fun _ => rfl⟩

theorem congr (h : Registers spellings r s) (hs : s'.keywords = s.keywords) :
    Registers spellings r s' :=
  ⟨h.ids, h.spellings, by rw [hs]; exact h.keywords⟩

/-- A new type stands for its text if it is a keyword in which case counts and the text has none. -/
theorem add (h : Registers spellings r s) (kind : TokenKind)
    (hs : ∀ text, s'.keywords.lookup text =
      (s.keywords.lookup text).or
      (if kind.spelling? == some (text, true) then some (r.add kind).1 else none)) :
    Registers (spellings ++ kind.spelling?.toList) (r.add kind).2 s' := by
  refine ⟨?_, ?_, fun text => ?_⟩
  · rw [Registry.types_add, List.map_append, h.ids, Registry.size_add, List.range'_concat]
    simp [Nat.add_comm]
  · rw [Registry.types_add, List.filterMap_append, h.spellings]
    cases hspelling : kind.spelling? <;> simp [hspelling]
  · rw [hs, h.keywords, Registry.types_add, List.find?_append, List.find?_singleton]
    rfl

/-- A type is among others if its number is. -/
theorem any_id_iff (h : Registers spellings r s) {types : List TokenType} {type : TokenType}
    (htype : type ∈ r.types) (htypes : types ⊆ r.types) :
    types.any (·.id == type.id) = true ↔ type ∈ types := by
  have hnodup : (r.types.map (·.id)).Nodup := by
    rw [h.ids]
    exact List.nodup_range'
  rw [List.any_eq_true]
  constructor
  · rintro ⟨t, ht, hid⟩
    rwa [← List.inj_on_of_nodup_map hnodup (htypes ht) htype (beq_iff_eq.mp hid)]
  · exact fun hmem => ⟨type, hmem, beq_self_eq_true _⟩

end Registers

namespace Definition

variable {spellings : List (String × Bool)} {r r' : Registry} {s s' : Symbols}
  {d : Definition} {g : Grammar}

/-- A declaration adds a type with its spelling, or finds the literal that is there. -/
theorem declare_cases {form : TokenForm} {t : TokenType} (h : declare r form = .ok (t, r')) :
    form.spelling? = none ∧ r' = r ∨ ∃ kind : TokenKind, kind.spelling? = form.spelling? ∧
      (t, r') = r.add kind := by
  unfold declare at h
  split at h
  case h_3 pattern =>
    obtain ⟨p, -, hp⟩ := exists_of_map_eq_ok h
    exact .inr ⟨_, rfl, hp.symm⟩
  case h_6 marker _ =>
    obtain ⟨p, -, hp⟩ := exists_of_map_eq_ok h
    exact .inr ⟨_, rfl, hp.symm⟩
  case h_8 =>
    have h := Except.ok.inj h
    unfold Registry.addLiteral at h
    split at h
    · exact .inl ⟨rfl, (Prod.mk.inj h).2.symm⟩
    · exact .inr ⟨_, rfl, h.symm⟩
  all_goals exact .inr ⟨_, rfl, (Except.ok.inj h).symm⟩

theorem spelling?_of_caseSensitive {form : TokenForm} {text : String}
    (h : form.spelling? = some (text, true)) : form = .keyword text true := by
  unfold TokenForm.spelling? at h
  split at h
  · obtain ⟨rfl, -⟩ := Prod.mk.inj (Option.some.inj h)
    rfl
  · exact absurd (Prod.mk.inj (Option.some.inj h)).2 nofun
  · exact absurd h nofun

/-- A declaration adds its spelling. -/
theorem registers_declare {form : TokenForm} {t : TokenType} (h : Registers spellings r s)
    (hs : s'.keywords = match form with
      | .keyword text true => s.keywords ++ [(text, t)]
      | _ => s.keywords)
    (hdeclare : declare r form = .ok (t, r')) :
    Registers (spellings ++ form.spelling?.toList) r' s' := by
  rcases declare_cases hdeclare with ⟨hnone, rfl⟩ | ⟨kind, hkind, hadd⟩
  · rw [hnone, Option.toList_none, List.append_nil]
    split at hs
    · exact absurd hnone nofun
    · exact h.congr hs
  · obtain ⟨rfl, rfl⟩ := Prod.mk.inj hadd
    rw [← hkind]
    refine h.add kind fun text => ?_
    rw [hs, hkind]
    split
    · next text' =>
      rw [List.lookup_append, List.lookup_cons, List.lookup_nil]
      by_cases htext : text = text'
      · simp [TokenForm.spelling?, htext, Registry.add]
      · simp [TokenForm.spelling?, beq_eq_false_iff_ne.mpr htext, Ne.symm htext]
    · next hnot =>
      have hinsensitive : ¬(form.spelling? == some (text, true)) = true := fun heq =>
        hnot text (spelling?_of_caseSensitive (beq_iff_eq.mp heq))
      rw [if_neg hinsensitive, Option.or_none]

/-- Declaring the tokens adds their spellings. -/
theorem registers_declareTokens : ∀ {decls : List TokenDecl} {spellings : List (String × Bool)}
    {r r' : Registry} {s s' : Symbols}, Registers spellings r s →
    declareTokens decls r s = .ok (r', s') →
      Registers (spellings ++ decls.filterMap (·.form.spelling?)) r' s'
  | [], _, _, _, _, _, h, heq => by
    cases heq
    rwa [List.filterMap_nil, List.append_nil]
  | decl :: decls, spellings, r, r', s, s', h, heq => by
    obtain ⟨t, r₁, keywords, hdeclare, hkeywords, heq⟩ := exists_of_declareTokens_cons heq
    have hnext := registers_declareTokens (registers_declare h hkeywords hdeclare) heq
    rw [List.append_assoc] at hnext
    rw [List.filterMap_cons]
    cases hspelling : decl.form.spelling? with
    | none => rwa [hspelling] at hnext
    | some p => rwa [hspelling] at hnext

/-- Declaring a keyword for each quoted text adds keywords in which case counts. -/
theorem registers_declareQuoted : ∀ (texts : List String) {spellings : List (String × Bool)}
    {r : Registry} {s : Symbols}, Registers spellings r s →
    ∃ more : List String,
      Registers (spellings ++ more.map (·, true)) (declareQuoted texts r s).1
      (declareQuoted texts r s).2
  | [], spellings, _, _, h => ⟨[], by rwa [List.map_nil, List.append_nil]⟩
  | text :: texts, spellings, r, s, h => by
    rw [declareQuoted]
    split
    · exact registers_declareQuoted texts h
    · have hdeclare : declare r (.keyword text true) = .ok (r.addKeyword text) := rfl
      have hadd : Registers (spellings ++ [(text, true)]) (r.addKeyword text).2
          { s with keywords := s.keywords ++ [(text, (r.addKeyword text).1)] } :=
            registers_declare h rfl hdeclare
      obtain ⟨more, hmore⟩ := registers_declareQuoted texts hadd
      exact ⟨text :: more, by rwa [List.append_assoc] at hmore⟩

/-- The types of the grammar, with what the names and quoted texts of the definition stand for. -/
theorem exists_registers (hg : d.grammar = .ok g) (h : d.Compiled g s) :
    ∃ more : List String, Registers (d.spellings ++ more.map (·, true)) g.types s := by
  obtain ⟨s', hsymbols, -, hkeywords⟩ := h.tokens
  obtain ⟨⟨types, s₀⟩, htokens, hg⟩ := exists_of_bind_eq_ok hg
  rw [Definition.symbols, htokens] at hsymbols
  obtain rfl := Except.ok.inj hsymbols
  obtain ⟨more, hmore⟩ := registers_declareQuoted
    (Item.quotedInBranches (d.rules.flatMap (·.branches))) (registers_declareTokens .nil htokens)
  obtain ⟨root, -, hg⟩ := exists_of_bind_eq_ok hg
  obtain ⟨s'', -, hg⟩ := exists_of_bind_eq_ok hg
  obtain ⟨rules, -, hg⟩ := exists_of_bind_eq_ok hg
  refine ⟨more, ?_⟩
  split at hg
  · obtain rfl := Except.ok.inj hg
    exact hmore.congr hkeywords.symm
  · cases hg

end Definition

/-! ## Which keyword a text is -/

namespace Registers

variable {spellings : List (String × Bool)} {r : Registry} {s : Symbols} {text : String}
  {type : TokenType}

theorem find?_keyword? (types : List TokenType) (text : String) :
    (types.find? (·.kind.keyword? == some text)).map (·.kind.spelling?) =
      ((types.filterMap (·.kind.spelling?)).lookup text).map fun caseSensitive =>
      some (text, caseSensitive) := by
  induction types with
  | nil => rfl
  | cons t types ih =>
    rw [List.find?_cons, List.filterMap_cons, TokenKind.keyword?_eq]
    cases hspelling : t.kind.spelling? with
    | none => exact ih
    | some p =>
      obtain ⟨stored, caseSensitive⟩ := p
      rw [List.lookup_cons]
      by_cases htext : text = stored
      · simp [htext, hspelling]
      · have hleft : (text == stored) = false := beq_eq_false_iff_ne.mpr htext
        have hright : (some stored == some text) = false :=
          beq_eq_false_iff_ne.mpr (by simpa using Ne.symm htext)
        rw [hleft]
        simp only [Option.map_some, hright]
        exact ih

theorem spelling?_of_lookup (h : Registers spellings r s)
    (hlookup : s.keywords.lookup text = some type) :
    type ∈ r.types ∧ type.kind.spelling? = some (text, true) := by
  rw [h.keywords] at hlookup
  have hspelling := List.find?_some hlookup
  exact ⟨List.mem_of_find?_eq_some hlookup, beq_iff_eq.mp hspelling⟩

/-- More keywords for which case counts do not come before one for which it does not. -/
theorem lookup_append_sensitive (spellings : List (String × Bool)) (more : List String)
    (text : String) : (spellings ++ more.map (·, true)).lookup text = some false ↔
      spellings.lookup text = some false := by
  have hmore : (more.map (·, true)).lookup text ≠ some false := by
    intro hfalse
    obtain ⟨before, after, heq, -⟩ := List.lookup_eq_some_iff.mp hfalse
    have hmem : (text, false) ∈ more.map (·, true) := by rw [heq]; simp
    obtain ⟨other, -, hother⟩ := List.mem_map.mp hmem
    exact absurd (Prod.mk.inj hother).2 nofun
  rw [List.lookup_append]
  cases spellings.lookup text with
  | none => exact iff_of_false hmore nofun
  | some caseSensitive => rfl

/-- Of the types with a stored text the first one is the keyword that a quotation stands for, unless
case does not count for it. -/
theorem find?_eq_some_iff (h : Registers spellings r s)
    (hlookup : s.keywords.lookup text = some type) :
    ∃ first, r.types.find? (·.kind.keyword? == some text) = some first ∧
      (first = type ↔ spellings.lookup text ≠ some false) := by
  obtain ⟨hmem, hspelling⟩ := h.spelling?_of_lookup hlookup
  rw [h.keywords] at hlookup
  obtain ⟨first, hfirst⟩ : ∃ first, r.types.find? (·.kind.keyword? == some text) = some first := by
    rw [← Option.isSome_iff_exists, List.find?_isSome]
    refine ⟨type, hmem, ?_⟩
    rw [TokenKind.keyword?_eq, hspelling]
    exact beq_self_eq_true _
  obtain ⟨caseSensitive, hcase, hstored⟩ :
      ∃ caseSensitive, spellings.lookup text = some caseSensitive ∧
      first.kind.spelling? = some (text, caseSensitive) := by
    have hmap := find?_keyword? r.types text
    rw [hfirst, h.spellings, Option.map_some] at hmap
    obtain ⟨caseSensitive, hcase, heq⟩ := Option.map_eq_some_iff.mp hmap.symm
    exact ⟨caseSensitive, hcase, heq.symm⟩
  refine ⟨first, hfirst, ?_⟩
  rw [hcase]
  constructor
  · rintro rfl
    rw [hspelling] at hstored
    rw [← (Prod.mk.inj (Option.some.inj hstored)).2]
    exact nofun
  · intro hne
    obtain rfl : caseSensitive = true := Bool.eq_true_of_not_eq_false fun hfalse =>
      hne (by rw [hfalse])
    -- what stands before the first type with the text has another text
    obtain ⟨-, before, after, htypes, hbefore⟩ := List.find?_eq_some_iff_append.mp hfirst
    refine Option.some.inj (Eq.trans ?_ hlookup)
    refine (List.find?_eq_some_iff_append.mpr ⟨?_, before, after, htypes, ?_⟩).symm
    · rw [hstored]
      exact beq_self_eq_true _
    · intro t ht
      have hother := hbefore t ht
      rw [TokenKind.keyword?_eq] at hother
      rw [Bool.not_eq_true', beq_eq_false_iff_ne] at hother ⊢
      intro heq
      exact hother (by rw [heq]; rfl)

end Registers

namespace Lexer

variable {types : List TokenType} {text : List Char} {type : TokenType}

/-- A text that is one token of a keyword or of words: there are neither blanks nor quotes in it, no
separator occurs in it, and no marker is recognized in front or behind. -/
structure Alone (types : List TokenType) (text : List Char) : Prop where
  ne_nil : text ≠ []
  plain : ∀ c ∈ text, Text.isBlank c = false ∧ isQuote c = false
  separators : ∀ t ∈ types, ∀ p, t.kind.split? = some p → p.find text = none
  leading : ∀ t ∈ types, t.kind.isLeading = true → t.kind.accepts text = false
  trailing : ∀ t ∈ types, t.kind.isTrailing = true → t.kind.accepts text = false

theorem comments_ofTypes (types : List TokenType) :
    (ofTypes types).lineComment = none ∧ (ofTypes types).blockComment = none := by
  induction types using List.reverseRecOn with
  | nil => exact ⟨rfl, rfl⟩
  | append_singleton types t ih =>
    rw [ofTypes_concat]
    unfold add
    split <;> exact ih

theorem startsComment_ofTypes (types : List TokenType) (c : Char) :
    (ofTypes types).startsComment c = false := by
  obtain ⟨hline, hblock⟩ := comments_ofTypes types
  rw [startsComment, hline, hblock]
  rfl

namespace Alone

theorem isPlainChar (h : Alone types text) :
    ∀ c ∈ text, (ofTypes types).IsPlainChar c := fun c hc =>
  ⟨(h.plain c hc).1, (h.plain c hc).2, startsComment_ofTypes types c⟩

theorem not_isLiteralText (h : Alone types text) : isLiteralText text = false := by
  obtain ⟨c, cs, rfl⟩ := List.exists_cons_of_ne_nil h.ne_nil
  rw [isLiteralText, (h.plain c List.mem_cons_self).2]
  rfl

theorem split_eq (h : Alone types text) : (ofTypes types).splitter.split text = [.plain text] := by
  refine Splitter.split_of_uncut h.ne_nil fun sep hsep => ?_
  obtain ⟨hmem, -⟩ := (sorts_ofTypes types).separators sep hsep
  rw [TokenKind.cut?]
  cases hsplit : sep.kind.split? with
  | none => rfl
  | some p => rw [Option.bind_some, h.separators sep hmem p hsplit, Option.bind_none]

theorem remainingRight? (h : Alone types text) :
    ∀ t ∈ (ofTypes types).leading, t.kind.remainingRight? text = none := by
  intro t ht
  obtain ⟨hmem, hleading⟩ := (sorts_ofTypes types).leading t ht
  have haccepts := h.leading t hmem hleading
  unfold TokenKind.remainingRight?
  split
  · next marker hkind =>
    rw [hkind, TokenKind.accepts, Pattern.accepts, Option.isSome_eq_false_iff,
      Option.isNone_iff_eq_none] at haccepts
    rw [haccepts, Option.bind_none]
  · rfl

theorem remainingLeft? (h : Alone types text) :
    ∀ t ∈ (ofTypes types).trailing, t.kind.remainingLeft? text = none := by
  intro t ht
  obtain ⟨hmem, htrailing⟩ := (sorts_ofTypes types).trailing t ht
  have haccepts := h.trailing t hmem htrailing
  unfold TokenKind.remainingLeft?
  split
  · next marker hkind =>
    rw [hkind, TokenKind.accepts, Pattern.accepts, Option.isSome_eq_false_iff,
      Option.isNone_iff_eq_none] at haccepts
    rw [haccepts, Option.bind_none]
  · rfl

/-- The text is one token if it has any type. -/
theorem tokenizeFrom (h : Alone types text) (htypes : (ofTypes types).plainTypes text ≠ [])
    (source : Option String) : ∃ before, (ofTypes types).tokenizeFrom text source =
      .ok [(ofTypes types).token text ((ofTypes types).plainTypes text) before] :=
  tokenizeFrom_plain h.ne_nil h.isPlainChar
    (classify_plain h.split_eq h.remainingRight? h.remainingLeft? h.not_isLiteralText htypes) source

end Alone

/-- The first type that is stored as the text is its keyword. -/
theorem keyword?_ofTypes (h : types.find? (·.kind.keyword? == some (.ofList text)) = some type) :
    (ofTypes types).keyword? text = some type := by
  have hkeyword : (types.filter (·.kind.isKeyword)).find? (·.kind.keyword? == some (.ofList text)) =
      some type := by
    rw [List.find?_filter, ← h]
    congr 1
    funext t
    rw [Bool.eq_iff_iff, decide_eq_true_iff]
    exact and_iff_right_of_imp fun htext =>
      (TokenKind.isKeyword_of_keyword? (beq_iff_eq.mp htext)).1
  rw [keyword?, (sorts_ofTypes types).keywords, hkeyword]
  rfl

/-- Of keywords a text has the first one that is stored as the text, and no other. -/
theorem mem_plainTypes_iff {first : TokenType}
    (h : types.find? (·.kind.keyword? == some (.ofList text)) = some first)
    (htype : type.kind.keyword? = some (.ofList text)) :
    type ∈ (ofTypes types).plainTypes text ↔ type = first := by
  rw [plainTypes, keyword?_ofTypes h, (sorts_ofTypes types).words, List.mem_append, List.mem_filter,
    List.mem_filter, (TokenKind.isKeyword_of_keyword? htype).2]
  simp only [Option.toList_some, List.mem_singleton, Bool.false_eq_true, and_false, false_and,
    or_false]

theorem plainTypes_subset (types : List TokenType) (text : List Char) :
    (ofTypes types).plainTypes text ⊆ types := by
  intro t ht
  rw [plainTypes, (sorts_ofTypes types).words, List.mem_append, Option.mem_toList] at ht
  rcases ht with ht | ht
  · have hmem : t ∈ (ofTypes types).keywords := by
      rcases Option.or_eq_some_iff.mp ht with h | ⟨-, h⟩
      · exact List.mem_of_find?_eq_some h
      · exact List.mem_of_find?_eq_some h
    rw [(sorts_ofTypes types).keywords] at hmem
    exact List.mem_of_mem_filter hmem
  · exact List.mem_of_mem_filter (List.mem_of_mem_filter ht)

end Lexer

namespace Definition

variable {d : Definition} {g : Grammar} {n k : Nat} {decl : RuleDecl} {ident : Option String}
  {text : String}

/-- A quoted text that can be a token of its own is one token, and that has the type that the slot
of the quotation asks for unless, of the declared keywords that are stored as the text, the first is
one for which case does not count. -/
theorem matched_iff_of_quoted (hg : d.grammar = .ok g) (hdecl : d.rules[n]? = some decl)
    (hquoted : (Item.atomsOfBranches decl.branches)[k]? = some ⟨ident, .keyword text⟩)
    (htext : Lexer.Alone g.types.types text.toList) (source : Option String) :
    ∃ (p : Piece) (type : TokenType) (token : Token), g.expand? n = some (fun _ => .ofPiece p) ∧
      p.labels[k]? = some (.token type ident) ∧
      g.lexer.tokenizeFrom text.toList source = .ok [token] ∧ token.text = text ∧
      (token.hasType type.id = true ↔ d.spellings.lookup text ≠ some false) := by
  obtain ⟨s, hcompiled⟩ := exists_compiled hg
  obtain ⟨more, hregisters⟩ := exists_registers hg hcompiled
  obtain ⟨rule, hrule, p, rfl, hlabels⟩ := exists_of_forall₂_of_getElem? hcompiled.resolves hdecl
  obtain ⟨l, hl, hlabel⟩ := exists_of_forall₂_of_getElem? hlabels hquoted
  obtain ⟨type, hlookup, rfl⟩ := Option.map_eq_some_iff.mp hlabel
  obtain ⟨first, hfirst, hiff⟩ := hregisters.find?_eq_some_iff hlookup
  obtain ⟨hmem, hspelling⟩ := hregisters.spelling?_of_lookup hlookup
  have hstored : type.kind.keyword? = some (.ofList text.toList) := by
    rw [TokenKind.keyword?_eq, hspelling, String.ofList_toList]
    rfl
  rw [← String.ofList_toList (s := text)] at hfirst
  have hplain : first ∈ g.lexer.plainTypes text.toList :=
    (Lexer.mem_plainTypes_iff hfirst (beq_iff_eq.mp (List.find?_some hfirst :))).mpr rfl
  obtain ⟨before, htoken⟩ := htext.tokenizeFrom (List.ne_nil_of_mem hplain) source
  refine ⟨p, type, _, ?_, hl, htoken, String.ofList_toList, ?_⟩
  · rw [Grammar.expand?, Grammar.rule?, hrule, Option.bind_some]
  · calc (Lexer.token _ _ _ before).hasType type.id = true
      _ ↔ type ∈ (Lexer.ofTypes g.types.types).plainTypes text.toList :=
        hregisters.any_id_iff hmem (Lexer.plainTypes_subset _ _)
      _ ↔ first = type := (Lexer.mem_plainTypes_iff hfirst hstored).trans eq_comm
      _ ↔ (d.spellings ++ more.map (·, true)).lookup text ≠ some false := hiff
      _ ↔ d.spellings.lookup text ≠ some false := by
        rw [ne_eq, Registers.lookup_append_sensitive]

end Definition

namespace Sample.Switches

/-- A keyword that is quoted in both cases.  Case does not count for the one that is declared. -/
def definition : Definition where
  tokens := [⟨"NAME", .literal⟩, ⟨"ON", .keyword "on" false⟩, ⟨"COMMA", .separator "," false true⟩,
    ⟨"DASH", .leading "-"⟩]
  rules := [⟨"switch", true, [[.single none (.token "NAME") none,
    .group none [[.single none (.keyword "on") none],
      [.single (some "loud") (.keyword "ON") none]] none]]⟩]

def name : TokenType := ⟨1, .literal⟩
def declared : TokenType := ⟨2, .keyword "ON" false⟩
def on : TokenType := ⟨5, .keyword "on" true⟩
def loud : TokenType := ⟨6, .keyword "ON" true⟩

def switch : Piece :=
  .sequence [.token name, .fork [.sequence [.token on], .sequence [.tokenAs loud "loud"]]]

def grammar : Grammar :=
  { types := ⟨[name, declared, ⟨3, .separator "," false⟩, ⟨4, .leading "-"⟩, on, loud]⟩
    rules := [{ name := "switch", expand := some fun _ => .ofPiece switch }], root :=
      0, ident := none }

theorem grammar_definition : definition.grammar = .ok grammar := by rfl

/-- Both quotations can be tokens of their own. -/
theorem alone : ∀ text ∈ ["on", "ON"], Lexer.Alone grammar.types.types text.toList := by
  have hplain : ∀ text ∈ ["on", "ON"], text.toList ≠ [] ∧
      (text.toList.all fun c => Text.isBlank c == false && isQuote c == false) = true := by
    decide
  have hmarkers : ∀ text ∈ ["on", "ON"], ∀ t ∈ grammar.types.types,
      (t.kind.split?.all fun p => (p.find text.toList).isNone) = true ∧
      (t.kind.isLeading = true → t.kind.accepts text.toList = false) ∧
      (t.kind.isTrailing = true → t.kind.accepts text.toList = false) := by
    decide +kernel
  intro text htext
  obtain ⟨hne, hplain⟩ := hplain text htext
  simp only [List.all_eq_true, Bool.and_eq_true, beq_iff_eq] at hplain
  refine ⟨hne, hplain, fun t ht p hp => ?_, fun t ht => (hmarkers text htext t ht).2.1,
    fun t ht => (hmarkers text htext t ht).2.2⟩
  have hnone := (hmarkers text htext t ht).1
  rw [hp] at hnone
  exact Option.isNone_iff_eq_none.mp hnone

theorem eq_of_expand? {p : Piece} (h : grammar.expand? 0 = some fun _ => .ofPiece p) :
    p = switch := by
  have hbody := congrFun (Option.some.inj h) ⟨{}, none⟩
  obtain ⟨hpart, -⟩ := List.cons.inj hbody
  exact (Clause.part.inj hpart).symm

/-- A quotation that the declared keyword would match, too, is matched by its own keyword. -/
theorem matched_iff_of_quoted_on : definition.grammar = .ok grammar ∧
    Lexer.Alone grammar.types.types "on".toList ∧ declared.kind.accepts "on".toList = true ∧
    ∃ (p : Piece) (type : TokenType) (token : Token),
      grammar.expand? 0 = some (fun _ => .ofPiece p) ∧ p.labels[1]? = some (.token type none) ∧
      grammar.lexer.tokenizeFrom "on".toList none = .ok [token] ∧ token.text = "on" ∧
      token.hasType type.id = true := by
  have hdecl : definition.rules[0]? = definition.rules.head? := rfl
  have hquoted : (Item.atomsOfBranches (definition.rules.head (by decide)).branches)[1]? =
      some ⟨none, .keyword "on"⟩ := rfl
  have halone := alone "on" (by decide)
  obtain ⟨p, type, token, hexpand, hlabel, htoken, htext, hiff⟩ :=
    Definition.matched_iff_of_quoted grammar_definition hdecl hquoted halone none
  exact ⟨grammar_definition, halone, by decide, p, type, token, hexpand, hlabel, htoken, htext,
    hiff.mpr (by decide)⟩

/-- The other quotation never matches: the text is a token of the declared keyword. -/
theorem quotation_unmatched : ¬∀ (d : Definition) (g : Grammar) (n k : Nat) (decl : RuleDecl)
    (ident : Option String) (text : String) (source : Option String), d.grammar = .ok g →
    d.rules[n]? = some decl →
      (Item.atomsOfBranches decl.branches)[k]? = some ⟨ident, .keyword text⟩ →
      Lexer.Alone g.types.types text.toList →
      ∃ (p : Piece) (type : TokenType) (token : Token), g.expand? n = some (fun _ => .ofPiece p) ∧
        p.labels[k]? = some (.token type ident) ∧
        g.lexer.tokenizeFrom text.toList source = .ok [token] ∧ token.hasType type.id = true := by
  intro hall
  obtain ⟨p, type, token, hexpand, hlabel, htoken, hhas⟩ :=
    hall definition grammar 0 2 _ (some "loud") "ON" none grammar_definition rfl rfl
      (alone "ON" (by decide))
  obtain rfl := eq_of_expand? hexpand
  have hslot : switch.labels[2]? = some (.token loud (some "loud")) := rfl
  obtain ⟨rfl, -⟩ := Label.token.inj (Option.some.inj (hslot.symm.trans hlabel))
  have hnot : ((grammar.lexer.tokenizeFrom "ON".toList none).toOption.any (·.any (·.hasType 6))) =
      false := by
    decide +kernel
  rw [htoken] at hnot
  have hnot : (token.hasType loud.id || false) = false := hnot
  rw [hhas] at hnot
  exact absurd hnot nofun

end Sample.Switches

end GrammarGraph
