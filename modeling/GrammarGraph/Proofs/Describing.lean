import GrammarGraph.Proofs.Recognizing
import GrammarGraph.Proofs.Spacing
import GrammarGraph.Proofs.Spelling
import GrammarGraph.Proofs.Unrolling

/-!
# Loops parse back

The words of a loop are names and braces.  A name may be spelt like a keyword; then it has both
types, and where it stands decides which of them counts.  Each word is one token
(`Sample.Loops.classify_word`), so what is written for loops is read as phrases, whatever blanks are
between the words (`Sample.Loops.exists_phrases_of_spaced`).  As phrases and nothing else are
parsed, loops that are written parse back to what they describe (`Sample.Loops.parses_back`).
-/

namespace GrammarGraph

/-- Where types have different numbers, what a token has the number of recognizes its
text, or is its marker. -/
theorem Token.ClassedBy.of_hasType {types : List TokenType} {token : Token} {type : TokenType}
    (h : token.ClassedBy types) (hids : ∀ t ∈ types, ∀ u ∈ types, t.id = u.id → t = u)
    (htype : type ∈ types) (ht : token.hasType type.id = true) :
    (type.kind.isKeyword = true ∨ type.kind.isWord = true) ∧
      type.kind.accepts token.text.toList = true ∨ type.kind.MadeOf token.text.toList := by
  obtain ⟨other, hmem, hid⟩ := List.any_eq_true.mp ht
  obtain rfl : other = type := hids other (h.truthful.mem other hmem) type htype (eq_of_beq hid)
  cases h with
  | alone _ htypes hmade =>
    obtain rfl := List.mem_singleton.mp (htypes ▸ hmem)
    exact .inr hmade
  | plain keyword htypes hkeyword _ =>
    rw [htypes, List.mem_append, Option.mem_toList, List.mem_filter, Bool.and_eq_true] at hmem
    rcases hmem with hmem | ⟨-, hword, haccepts⟩
    · exact .inl ⟨.inl (hkeyword _ hmem).2.1, (hkeyword _ hmem).2.2⟩
    · exact .inl ⟨.inr hword, haccepts⟩

/-- Parsing comes to an answer. -/
theorem Parser.exists_parse {p : Parser} (hg : p.grammar.EndsApart) (text : List Char)
    (source : Option String) :
    ∃ bound answer, ∀ fuel, bound ≤ fuel → p.parseWithin fuel text source = some answer := by
  obtain ⟨bound, found, hfound⟩ := Parser.exists_bound hg text source
  refine ⟨bound, found.map p.treeOf, fun fuel hfuel => ?_⟩
  rw [Parser.parseWithin, hfound fuel hfuel, Option.map_some]

namespace Sample.Loops

variable {word : String} {t : Token} {l : Loop} {p : Phrase}

/-! ## Words -/

/-- Names are names of any case. -/
theorem accepts_identifier (word : String) :
    identifier.kind.accepts word.toList = Meta.isName word := by
  refine Meta.accepts_word [('_', '_'), ('a', 'z'), ('A', 'Z')]
    [('_', '_'), ('a', 'z'), ('A', 'Z'), ('0', '9')] rfl ?_ ?_ word <;>
    simp [Meta.mem_ranges, CharSet.mem_lower, CharSet.mem_upper, CharSet.mem_digit,
      CharSet.mem_underscore]
  · intro c; ac_rfl
  · intro c; ac_rfl

theorem forall_types_iff {P : TokenType → Prop} : (∀ type ∈ grammar.types.types, P type) ↔
    P identifier ∧ P forEach ∧ P forAll ∧ P within ∧ P left ∧ P right := by
  show (∀ type ∈ [identifier, forEach, forAll, within, left, right], P type) ↔ _
  simp only [List.forall_mem_cons, List.not_mem_nil, false_implies, implies_true, and_true]

theorem mem_types : identifier ∈ grammar.types.types ∧ forEach ∈ grammar.types.types ∧
    forAll ∈ grammar.types.types ∧ within ∈ grammar.types.types ∧ left ∈ grammar.types.types ∧
    right ∈ grammar.types.types :=
  forall_types_iff.mp fun _ => id

theorem declared_types : ∀ type ∈ grammar.types.types, type.kind.Declared :=
  forall_types_iff.mpr ⟨.word, .keyword, .keyword, .keyword, .separator, .separator⟩

theorem eq_of_id_eq :
    ∀ t ∈ grammar.types.types, ∀ u ∈ grammar.types.types, t.id = u.id → t = u := by
  show ∀ t ∈ [identifier, forEach, forAll, within, left, right],
    ∀ u ∈ [identifier, forEach, forAll, within, left, right], t.id = u.id → t = u
  simp [identifier, forEach, forAll, within, left, right]

/-- The token is what its text is read as: it has the type that the text fits. -/
structure Spelt (token : Token) (word : List Char) : Prop where
  text : token.text.toList = word
  hasType : ∀ type ∈ grammar.types.types, Meta.fits type.kind token.text = true →
    token.hasType type.id = true

section

variable (settings : Settings)

/-- The lexer of the grammar with the settings. -/
abbrev lexer : Lexer := (Parser.withSettings grammar settings).lexer

theorem knows_lexer : (lexer settings).Knows grammar.types.types :=
  Parser.knows_withSettings grammar settings

variable {settings}

/-- A name is not split. -/
theorem split_name (h : Meta.isName word = true) :
    (lexer settings).splitter.split word.toList = [.plain word.toList] := by
  obtain ⟨hne, hplain⟩ := Meta.IsWord.plain_of_name h
  refine Splitter.split_of_uncut hne fun sep hsep => ?_
  have hbrace : ∀ type ∈ grammar.types.types, type.kind.isSeparator = true →
      ∃ marker tight, type.kind = .separator marker tight ∧
      ∃ c ∈ marker.toList, Meta.isPlain c = false :=
    forall_types_iff.mpr ⟨nofun, nofun, nofun, nofun,
      fun _ => ⟨_, _, rfl, _, List.mem_cons_self, rfl⟩,
      fun _ => ⟨_, _, rfl, _, List.mem_cons_self, rfl⟩⟩
  obtain ⟨hmem, hkind⟩ := (knows_lexer settings).sorts.separators sep hsep
  obtain ⟨marker, tight, hkind, c, hc, hnot⟩ := hbrace sep hmem hkind
  rw [hkind, TokenKind.cut?_separator_eq_none (List.ne_nil_of_mem hc)]
  exact fun hpart => absurd ((hplain c (hpart.subset hc)).symm.trans hnot) nofun

/-- What a name fits is among its types. -/
theorem mem_plainTypes (h : Meta.isName word = true) : ∀ type ∈ grammar.types.types,
    Meta.fits type.kind word = true → type ∈ (lexer settings).plainTypes word.toList := by
  have hsorts := (knows_lexer settings).sorts
  have hkeywords : (lexer settings).keywords = [forEach, forAll, within] := hsorts.keywords
  have hsensitive : ∀ t ∈ (lexer settings).keywords, ∃ stored, t.kind = .keyword stored true := by
    rw [hkeywords]
    simp only [List.forall_mem_cons]
    exact ⟨⟨_, rfl⟩, ⟨_, rfl⟩, ⟨_, rfl⟩, fun _ hmem => absurd hmem List.not_mem_nil⟩
  have hnodup : ((lexer settings).keywords.map (·.kind.keyword?)).Nodup := by
    rw [hkeywords]
    decide
  have hkeyword :
      ∀ t ∈ [forEach, forAll, within], t.kind.keyword? = some (String.ofList word.toList) →
      t ∈ (lexer settings).plainTypes word.toList := fun t ht hstored => by
    refine List.mem_append_left
      _ (Option.mem_toList.mpr ((Lexer.keyword?_eq_some_iff hsensitive hnodup).mpr ⟨?_, hstored⟩))
    rwa [hkeywords]
  have hbrace : ∀ brace, Meta.isName brace = false → (word == brace) = false :=
    fun brace hbrace => by
    refine beq_eq_false_iff_ne.mpr fun heq => ?_
    rw [heq, hbrace] at h
    cases h
  refine forall_types_iff.mpr ⟨fun hfits => ?_, fun hfits => ?_, fun hfits => ?_, fun hfits => ?_,
    fun hfits => ?_, fun hfits => ?_⟩
  · refine List.mem_append_right _ (List.mem_filter.mpr ⟨?_, hfits⟩)
    rw [hsorts.words]
    exact List.mem_cons_self
  · exact hkeyword _ (by simp) (congrArg some (eq_of_beq hfits).symm)
  · exact hkeyword _ (by simp) (congrArg some (eq_of_beq hfits).symm)
  · exact hkeyword _ (by simp) (congrArg some (eq_of_beq hfits).symm)
  · exact absurd hfits (Bool.eq_false_iff.mp (hbrace "\x7b" (by decide)))
  · exact absurd hfits (Bool.eq_false_iff.mp (hbrace "\x7d" (by decide)))

/-- A name is one token. -/
theorem classify_name (h : Meta.isName word = true) (before : Position) :
    ∃ token, (lexer settings).classify word.toList before = .ok [token] ∧
      Spelt token word.toList := by
  have hsorts := (knows_lexer settings).sorts
  have hmarkers : ∀ type ∈ grammar.types.types, type.kind.isLeading = false ∧
      type.kind.isTrailing = false :=
    forall_types_iff.mpr ⟨⟨rfl, rfl⟩, ⟨rfl, rfl⟩, ⟨rfl, rfl⟩, ⟨rfl, rfl⟩, ⟨rfl, rfl⟩, ⟨rfl, rfl⟩⟩
  have hleading :
      ∀ t ∈ (lexer settings).leading, t.kind.remainingRight? word.toList = none := fun t ht =>
    have hnot := (hmarkers t (hsorts.leading t ht).1).1
    absurd (hnot.symm.trans (hsorts.leading t ht).2) nofun
  have htrailing :
      ∀ t ∈ (lexer settings).trailing, t.kind.remainingLeft? word.toList = none := fun t ht =>
    have hnot := (hmarkers t (hsorts.trailing t ht).1).2
    absurd (hnot.symm.trans (hsorts.trailing t ht).2) nofun
  have hidentifier : identifier ∈ (lexer settings).plainTypes word.toList :=
    mem_plainTypes h identifier List.mem_cons_self ((accepts_identifier word).trans h)
  refine ⟨_, Lexer.classify_plain (split_name h) hleading htrailing
    (Meta.not_isLiteralText_of_isName h) (List.ne_nil_of_mem hidentifier) before,
    String.toList_ofList, fun type htype hfits => ?_⟩
  rw [Lexer.token, String.ofList_toList] at hfits
  exact List.any_eq_true.mpr ⟨type, mem_plainTypes h type htype hfits, beq_self_eq_true _⟩

/-- A brace is one token. -/
theorem classify_brace {type : TokenType} (htype : type ∈ [left, right])
    (hword : type.kind.marker? = some word) (before : Position) :
    ∃ token, (lexer settings).classify word.toList before = .ok [token] ∧
      Spelt token word.toList := by
  have hclassify : (lexer settings).classify word.toList before =
      .ok [(lexer settings).token word.toList [type] before] := by
    obtain ⟨line, block, full, tabSize, tree⟩ := settings
    simp only [List.mem_cons, List.not_mem_nil, or_false] at htype
    rcases htype with rfl | rfl <;> obtain rfl :=
      Option.some.inj hword <;> cases line <;> cases block <;> rfl
  have hfits : ∀ other ∈ grammar.types.types, Meta.fits other.kind word = true →
      type.id = other.id := by
    simp only [List.mem_cons, List.not_mem_nil, or_false] at htype
    rcases htype with rfl | rfl <;> obtain rfl := Option.some.inj hword <;> decide
  refine ⟨_, hclassify, String.toList_ofList, fun other hother hother' => ?_⟩
  rw [Lexer.token, String.ofList_toList] at hother'
  exact List.any_eq_true.mpr ⟨type, List.mem_singleton_self type,
    beq_iff_eq.mpr (hfits other hother hother')⟩

end

/-- The words of a loop are names and braces. -/
theorem Loop.name_or_brace (hl : l.IsNamed) (hword : word ∈ l.words) :
    Meta.isName word = true ∨ ∃ type ∈ [left, right], type.kind.marker? = some word := by
  obtain ⟨list, element⟩ := l
  obtain ⟨hlist, helement⟩ := hl
  have hbraces : ∀ brace ∈ ["\x7b", "\x7d"], ∃ type ∈ [left, right],
      type.kind.marker? = some brace := by
    simp only [List.forall_mem_cons]
    exact ⟨⟨left, by simp, rfl⟩, ⟨right, by simp, rfl⟩, fun _ hmem => absurd hmem List.not_mem_nil⟩
  rw [accepts_identifier] at hlist
  cases element with
  | none =>
    rcases List.mem_append.mp
      (show word ∈ ["forall", list] ++ ["\x7b", "\x7d"] from hword) with hword | hword
    · refine .inl ?_
      simp only [List.mem_cons, List.not_mem_nil, or_false] at hword
      rcases hword with rfl | rfl
      · decide
      · exact hlist
    · exact .inr (hbraces word hword)
  | some element =>
    rcases List.mem_append.mp
      (show word ∈ ["foreach", element, "in", list] ++ ["\x7b", "\x7d"] from hword) with
      hword | hword
    · refine .inl ?_
      simp only [List.mem_cons, List.not_mem_nil, or_false] at hword
      rcases hword with rfl | rfl | rfl | rfl
      · decide
      · exact accepts_identifier word ▸ helement word rfl
      · decide
      · exact hlist
    · exact .inr (hbraces word hword)

/-- Each word of a loop is a chunk of its own and one token. -/
theorem classify_word {settings : Settings} (hl : l.IsNamed) (hword : word ∈ l.words)
    (hcomment : ∀ c ∈ word.toList, (lexer settings).startsComment c = false) :
    (word.toList ≠ [] ∧ ∀ c ∈ word.toList, (lexer settings).IsPlainChar c) ∧
      ∀ before, ∃ token, (lexer settings).classify word.toList before = .ok [token] ∧
        Spelt token word.toList := by
  rcases l.name_or_brace hl hword with hname | ⟨type, htype, hmarker⟩
  · obtain ⟨hne, hplain⟩ := Meta.IsWord.plain_of_name hname
    refine ⟨⟨hne, fun c hc => ?_⟩, classify_name hname⟩
    obtain ⟨hblank, hquote, -⟩ := Meta.isPlainChar_of_isPlain (hplain c hc)
    exact ⟨hblank, hquote, hcomment c hc⟩
  · refine ⟨?_, classify_brace htype hmarker⟩
    have hbrace : word.toList ≠ [] ∧
        (word.toList.all fun c => !Text.isBlank c && !isQuote c) = true := by
      simp only [List.mem_cons, List.not_mem_nil, or_false] at htype
      rcases htype with rfl | rfl <;> obtain rfl := Option.some.inj hmarker <;> decide
    refine ⟨hbrace.1, fun c hc => ?_⟩
    obtain ⟨hblank, hquote⟩ := Bool.and_eq_true_iff.mp (List.all_eq_true.mp hbrace.2 c hc)
    exact ⟨(Bool.not_eq_true' _).mp hblank, (Bool.not_eq_true' _).mp hquote, hcomment c hc⟩

/-! ## Words and phrases -/

theorem Spelt.hasType_of_fits (h : Spelt t word.toList) {type : TokenType}
    (htype : type ∈ grammar.types.types) (hfits : Meta.fits type.kind word = true) :
    t.hasType type.id = true :=
  h.hasType type htype (String.toList_inj.mp h.text ▸ hfits)

/-- The tokens for the words of a loop are a phrase. -/
theorem Loop.exists_phrase (hl : l.IsNamed) {tokens : List Token} {rest : List (List Char)}
    (h : List.Forall₂ Spelt tokens (l.words.map String.toList ++ rest)) :
    ∃ (p : Phrase) (tokens' : List Token), tokens = p.tokens ++ tokens' ∧ p.IsTyped ∧ p.loop = l ∧
      List.Forall₂ Spelt tokens' rest := by
  obtain ⟨hidentifier, heach, hall, hwithin, hleft, hright⟩ := mem_types
  obtain ⟨name, element⟩ := l
  obtain ⟨hname, helement⟩ := hl
  cases element with
  | none =>
    obtain _ | ⟨hword, _ | ⟨hlist, _ | ⟨hopening, _ | ⟨hclosing, hrest⟩⟩⟩⟩ := h
    refine ⟨⟨.overAll _ _, _, _⟩, _, rfl, ⟨⟨?_, ?_⟩, ?_, ?_⟩, ?_, hrest⟩
    · exact hword.hasType_of_fits hall rfl
    · exact hlist.hasType_of_fits hidentifier hname
    · exact hopening.hasType_of_fits hleft rfl
    · exact hclosing.hasType_of_fits hright rfl
    · exact congrArg (Loop.mk · none) (String.toList_inj.mp hlist.text)
  | some element =>
    obtain _ |
        ⟨hword, _ | ⟨hmember, _ | ⟨hin, _ | ⟨hlist, _ | ⟨hopening, _ | ⟨hclosing, hrest⟩⟩⟩⟩⟩⟩ := h
    refine ⟨⟨.overEach _ _ _ _, _, _⟩, _, rfl, ⟨⟨?_, ?_, ?_, ?_⟩, ?_, ?_⟩, ?_, hrest⟩
    · exact hword.hasType_of_fits heach rfl
    · exact hmember.hasType_of_fits hidentifier (helement element rfl)
    · exact hin.hasType_of_fits hwithin rfl
    · exact hlist.hasType_of_fits hidentifier hname
    · exact hopening.hasType_of_fits hleft rfl
    · exact hclosing.hasType_of_fits hright rfl
    · exact congrArg₂ Loop.mk (String.toList_inj.mp hlist.text)
        (congrArg some (String.toList_inj.mp hmember.text))

theorem exists_phrases_of_spelt {loops : List Loop} (hloops : ∀ l ∈ loops, l.IsNamed)
    {tokens : List Token}
    (h : List.Forall₂ Spelt tokens ((loops.flatMap Loop.words).map String.toList)) :
    ∃ phrases : List Phrase, (∀ p ∈ phrases, p.IsTyped) ∧ phrases.flatMap (·.tokens) = tokens ∧
      phrases.map (·.loop) = loops := by
  induction loops generalizing tokens with
  | nil =>
    cases h
    exact ⟨[], fun _ hmem => absurd hmem List.not_mem_nil, rfl, rfl⟩
  | cons l loops ih =>
    rw [List.forall_mem_cons] at hloops
    rw [List.flatMap_cons, List.map_append] at h
    obtain ⟨p, tokens', rfl, hp, rfl, hrest⟩ := Loop.exists_phrase hloops.1 h
    obtain ⟨phrases, hphrases, rfl, rfl⟩ := ih hloops.2 hrest
    exact ⟨p :: phrases, List.forall_mem_cons.mpr ⟨hp, hphrases⟩, rfl, rfl⟩

/-- A type that a token of a text has fits its text. -/
theorem fits_of_hasType (h : t.ClassedBy grammar.types.types) : ∀ type ∈ grammar.types.types,
    t.hasType type.id = true → Meta.fits type.kind t.text = true := by
  have htext := fun type (htype : type ∈ grammar.types.types) => h.of_hasType eq_of_id_eq htype
  obtain ⟨hidentifier, heach, hall, hwithin, hleft, hright⟩ := forall_types_iff.mp htext
  refine forall_types_iff.mpr ⟨fun ht => ?_, fun ht => ?_, fun ht => ?_, fun ht => ?_, fun ht => ?_,
    fun ht => ?_⟩
  · exact ((hidentifier ht).resolve_right id).2
  · exact ((heach ht).resolve_right id).2
  · exact ((hall ht).resolve_right id).2
  · exact ((hwithin ht).resolve_right id).2
  · exact beq_iff_eq.mpr
      (String.toList_inj.mp ((hleft ht).resolve_left fun h => absurd h.1 (by decide)))
  · exact beq_iff_eq.mpr
      (String.toList_inj.mp ((hright ht).resolve_left fun h => absurd h.1 (by decide)))

theorem text_of_keyword {stored text : String} (h : Meta.fits (.keyword stored true) text = true) :
    text = stored := by
  rw [← eq_of_beq h, String.ofList_toList]

/-- The first token of a loop tells of which sort it is. -/
theorem decided_of_classedBy (h : t.ClassedBy grammar.types.types) : Decided t := by
  intro heach
  refine Bool.eq_false_iff.mpr fun hall => ?_
  have htext := text_of_keyword (fits_of_hasType h forEach mem_types.2.1 heach)
  have htext' := text_of_keyword (fits_of_hasType h forAll mem_types.2.2.1 hall)
  exact absurd (htext.symm.trans htext') (by decide)

/-- The tokens of a phrase are the words of a loop. -/
theorem Phrase.IsTyped.words (hp : p.IsTyped)
    (hclassed : ∀ t ∈ p.tokens, t.ClassedBy grammar.types.types) :
    p.loop.IsNamed ∧ p.tokens.map (·.text) = p.loop.words := by
  obtain ⟨hidentifier, heach, hall, hin, hleft, hright⟩ := mem_types
  obtain ⟨header, opening, closing⟩ := p
  obtain ⟨hheader, hopening, hclosing⟩ := hp
  rw [Phrase.tokens, List.forall_mem_append] at hclassed
  obtain ⟨hclassed, hbraces⟩ := hclassed
  simp only [List.forall_mem_cons] at hbraces
  have hopen : opening.text = "\x7b" := eq_of_beq (fits_of_hasType hbraces.1 left hleft hopening)
  have hclose : closing.text = "\x7d" :=
    eq_of_beq (fits_of_hasType hbraces.2.1 right hright hclosing)
  cases header with
  | overAll word list =>
    simp only [Header.tokens, List.forall_mem_cons] at hclassed
    obtain ⟨hword', hlist', -⟩ := hclassed
    have hword : word.text = "forall" :=
      text_of_keyword (fits_of_hasType hword' forAll hall hheader.1)
    refine ⟨⟨fits_of_hasType hlist' identifier hidentifier hheader.2, fun _ => nofun⟩, ?_⟩
    show [word.text, list.text, opening.text, closing.text] = _
    rw [hword, hopen, hclose]
    rfl
  | overEach word element within list =>
    simp only [Header.tokens, List.forall_mem_cons] at hclassed
    obtain ⟨hword', helement', hwithin', hlist', -⟩ := hclassed
    obtain ⟨hword, helement, hwithin, hlist⟩ := hheader
    have hfirst : word.text = "foreach" :=
      text_of_keyword (fits_of_hasType hword' forEach heach hword)
    have hsecond : within.text = "in" :=
      text_of_keyword (fits_of_hasType hwithin' Loops.within hin hwithin)
    refine ⟨⟨fits_of_hasType hlist' identifier hidentifier hlist, ?_⟩, ?_⟩
    · rintro e ⟨⟩
      exact fits_of_hasType helement' identifier hidentifier helement
    · show [word.text, element.text, within.text, list.text, opening.text, closing.text] = _
      rw [hfirst, hsecond, hopen, hclose]
      rfl

/-! ## The texts that are parsed -/

section

variable {settings : Settings} {chars : List Char} {source : Option String}

theorem classed_of_tokenizeFrom {tokens : List Token}
    (hlex : (lexer settings).tokenizeFrom chars source = .ok tokens) :
    ∀ t ∈ tokens, t.ClassedBy grammar.types.types :=
  Stream.classed_tokenizeFrom (knows_lexer settings) declared_types hlex

/-- What is written for loops, with any blanks between the words, is read as
phrases that describe them. -/
theorem exists_phrases_of_spaced {loops : List Loop} (hloops : ∀ l ∈ loops, l.IsNamed)
    (hspaced : Text.Spaced ((loops.flatMap Loop.words).map String.toList) chars)
    (hcomment : ∀ c ∈ chars, (lexer settings).startsComment c = false) (source : Option String) :
    ∃ phrases : List Phrase, (∀ p ∈ phrases, p.IsTyped) ∧
      (lexer settings).tokenizeFrom chars source = .ok (phrases.flatMap (·.tokens)) ∧
      phrases.map (·.loop) = loops := by
  have hwords : ∀ word ∈ (loops.flatMap Loop.words).map String.toList,
      (word ≠ [] ∧ ∀ c ∈ word, (lexer settings).IsPlainChar c) ∧
        ∀ before, ∃ token, (lexer settings).classify word before = .ok [token] ∧
          Spelt token word := by
    intro word hword
    have hsubset := hspaced.subset hword
    obtain ⟨text, htext, rfl⟩ := List.mem_map.mp hword
    obtain ⟨l, hl, htext⟩ := List.mem_flatMap.mp htext
    exact classify_word (hloops l hl) htext fun c hc => hcomment c (hsubset hc)
  obtain ⟨tokens, hlex, hspelt⟩ := Lexer.tokenizeFrom_spaced hwords hspaced source
  obtain ⟨phrases, hphrases, rfl, hloop⟩ := exists_phrases_of_spelt hloops hspelt
  exact ⟨phrases, hphrases, hlex, hloop⟩

/-- The search for phrases succeeds, and the path is rewritten to what they describe. -/
theorem exists_bound_of_phrases (hast : settings.tree = .ast) {phrases : List Phrase}
    (hphrases : ∀ p ∈ phrases, p.IsTyped)
    (hlex : (lexer settings).tokenizeFrom chars source = .ok (phrases.flatMap (·.tokens))) :
    ∃ bound, ∀ fuel, bound ≤ fuel →
      (Parser.withSettings grammar settings).parseWithin fuel chars source =
        some (.ok (treeOfAll (phrases.map (·.loop)))) := by
  obtain ⟨s, htree, bound, hbound⟩ := Parser.searchWithin_of_succeeds
    (p := Parser.withSettings grammar settings) hlex (succeeds_phrases hphrases (fun t ht =>
      decided_of_classedBy (classed_of_tokenizeFrom hlex t ht)) settings.fullBacktracking)
  refine ⟨bound, fun fuel hfuel => ?_⟩
  rw [Parser.parseWithin, hbound fuel hfuel]
  have htreeOf :
      (Parser.withSettings grammar settings).treeOf s = treeOfAll (phrases.map (·.loop)) := by
    rw [Parser.treeOf, show (Parser.withSettings grammar settings).tree = .ast from hast]
    exact htree
  rw [← htreeOf]
  rfl

/-- Where a tree is made, the tokens are phrases, and it is the tree of what they describe. -/
theorem exists_phrases_of_parseWithin (hast : settings.tree = .ast) {fuel : Nat} {tree : Tree}
    (h : (Parser.withSettings grammar settings).parseWithin fuel chars source = some (.ok tree)) :
    ∃ phrases : List Phrase, (∀ p ∈ phrases, p.IsTyped) ∧
      (lexer settings).tokenizeFrom chars source = .ok (phrases.flatMap (·.tokens)) ∧
      tree = treeOfAll (phrases.map (·.loop)) := by
  obtain ⟨s, hsearch, rfl⟩ := Parser.exists_ok_of_map h
  obtain ⟨phrases, hphrases, htokens, htree⟩ := exists_phrases_of_searchWithin rfl hast hsearch
  obtain ⟨stream, hpulls, -, -, hend⟩ := Parser.pulls_of_searchWithin hsearch
  exact ⟨phrases, hphrases, htokens ▸ Parser.tokenizeFrom_of_pulls hpulls hend, htree⟩

/-- Loops that are written with any blanks between the words parse back to what they describe: one
node for each loop in order, with the list and, if there is one, the element.  A text is parsed just
if its tokens are loops, each token with the type of its place, and then they are the words of loops
and the tree is that of what they describe. -/
theorem parses_back (settings : Settings) (hast : settings.tree = .ast) (chars : List Char)
    (source : Option String) :
    ∃ bound answer,
      (∀ fuel, bound ≤ fuel →
        (Parser.withSettings grammar settings).parseWithin fuel chars source = some answer) ∧
      (∀ loops : List Loop, (∀ l ∈ loops, l.IsNamed) →
        Text.Spaced ((loops.flatMap Loop.words).map String.toList) chars →
        (∀ c ∈ chars, (Parser.withSettings grammar settings).lexer.startsComment c = false) →
        answer = .ok (treeOfAll loops)) ∧
      (∀ tree, answer = .ok tree ↔
        ∃ phrases : List Phrase, (∀ p ∈ phrases, p.IsTyped) ∧
          (Parser.withSettings grammar settings).lexer.tokenizeFrom chars source =
            .ok (phrases.flatMap (·.tokens)) ∧
          tree = treeOfAll (phrases.map (·.loop))) ∧
      ∀ tree, answer = .ok tree →
        ∃ (loops : List Loop) (tokens : List Token), (∀ l ∈ loops, l.IsNamed) ∧
          (Parser.withSettings grammar settings).lexer.tokenizeFrom chars source = .ok tokens ∧
          tokens.map (·.text) = loops.flatMap Loop.words ∧ tree = treeOfAll loops := by
  obtain ⟨bound, answer, hanswer⟩ :=
    Parser.exists_parse (p := .withSettings grammar settings) endsApart_grammar chars source
  have hphrases : ∀ phrases : List Phrase, (∀ p ∈ phrases, p.IsTyped) →
      (lexer settings).tokenizeFrom chars source = .ok (phrases.flatMap (·.tokens)) →
      answer = .ok (treeOfAll (phrases.map (·.loop))) := by
    intro phrases hphrases hlex
    obtain ⟨enough, hok⟩ := exists_bound_of_phrases hast hphrases hlex
    exact Option.some.inj
      ((hanswer (max bound enough) (le_max_left _ _)).symm.trans (hok _ (le_max_right _ _)))
  have htree : ∀ tree, answer = .ok tree → ∃ phrases : List Phrase, (∀ p ∈ phrases, p.IsTyped) ∧
      (lexer settings).tokenizeFrom chars source = .ok (phrases.flatMap (·.tokens)) ∧
      tree = treeOfAll (phrases.map (·.loop)) := fun tree h =>
    exists_phrases_of_parseWithin hast ((hanswer bound (le_refl bound)).trans (congrArg some h))
  refine ⟨bound, answer, hanswer, fun loops hloops hspaced hcomment => ?_,
    fun tree => ⟨htree tree, ?_⟩, fun tree h => ?_⟩
  · obtain ⟨phrases, htyped, hlex, rfl⟩ := exists_phrases_of_spaced hloops hspaced hcomment source
    exact hphrases phrases htyped hlex
  · rintro ⟨phrases, htyped, hlex, rfl⟩
    exact hphrases phrases htyped hlex
  · -- The lexer gives a token no type that its text does not fit.
    obtain ⟨phrases, htyped, hlex, rfl⟩ := htree tree h
    have hwords := fun p hp => (htyped p hp).words fun t ht =>
      classed_of_tokenizeFrom hlex t (List.mem_flatMap.mpr ⟨p, hp, ht⟩)
    refine ⟨phrases.map Phrase.loop, _, List.forall_mem_map.mpr fun p hp => (hwords p hp).1, hlex,
      ?_, rfl⟩
    rw [List.map_flatMap, List.flatMap_map]
    exact List.flatMap_congr fun p hp => (hwords p hp).2

/-- With keywords for names, of two loops that lines and tabs set apart. -/
theorem parses_back_keywords :
    ∃ loops : List Loop, loops = [⟨"in", some "forall"⟩, ⟨"foreach", none⟩] ∧
      (∀ l ∈ loops, l.IsNamed) ∧
      Text.Spaced ((loops.flatMap Loop.words).map String.toList)
        "foreach forall in in \x7b\t\x7d\n\n forall foreach \x7b \x7d".toList ∧
      ∃ bound, ∀ fuel, bound ≤ fuel →
        (Parser.withSettings grammar {}).parseWithin fuel
          "foreach forall in in \x7b\t\x7d\n\n forall foreach \x7b \x7d".toList none =
            some (.ok (treeOfAll loops)) := by
  have hnamed : ∀ l ∈ ([⟨"in", some "forall"⟩, ⟨"foreach", none⟩] : List Loop), l.IsNamed := by
    simp only [List.forall_mem_cons]
    exact ⟨⟨rfl, by rintro _ ⟨⟩; rfl⟩,
      ⟨rfl, fun _ hnone => absurd hnone (Option.some_ne_none _).symm⟩,
      fun _ hmem => absurd hmem List.not_mem_nil⟩
  have hspaced : Text.Spaced (["foreach", "forall", "in", "in", "\x7b", "\x7d", "forall", "foreach",
        "\x7b", "\x7d"].map String.toList)
      "foreach forall in in \x7b\t\x7d\n\n forall foreach \x7b \x7d".toList := by
    refine .word (c := ' ') rfl
      (.word (c := ' ') rfl (.word (c := ' ') rfl (.word (c := ' ') rfl (.word (c := '\t') rfl
      (.word (c := '\n') rfl (.blank (c := '\n') rfl (.blank (c := ' ') rfl ?_)))))))
    exact .word (c := ' ') rfl (.word (c := ' ') rfl (.word (c := ' ') rfl .last))
  obtain ⟨bound, answer, hanswer, hback, -⟩ := parses_back {} rfl
    "foreach forall in in \x7b\t\x7d\n\n forall foreach \x7b \x7d".toList none
  refine ⟨_, rfl, hnamed, hspaced, bound, fun fuel hfuel => ?_⟩
  rw [hanswer fuel hfuel, hback _ hnamed hspaced fun _ _ => rfl]

end

end Sample.Loops

end GrammarGraph
