import GrammarGraph.Proofs.WordByWord
import GrammarGraph.Proofs.Words

/-!
# The tokens of definitions

A word of a definition is a name, a fixed text or a quoted text.  It becomes one token, which has
exactly the types that fit the word (`Meta.IsWord.exists_token`).  So the text of a definition is
read as tokens that stand for its words (`Definition.spells_print`).
-/

namespace GrammarGraph.Meta

/-- The fixed texts: keywords and markers. -/
def fixedWords : List String := types.types.filterMap fun type => fixed? type.kind

/-- What the words of definitions are. -/
inductive IsWord : String → Prop
  | name {word : String} : isName word = true → IsWord word
  | fixed {word : String} : word ∈ fixedWords → IsWord word
  | quoted {text : String} : isQuotable text = true → IsWord (quote text)

/-- The characters of names and keywords. -/
def isPlain (c : Char) : Bool := c.isLower || c.isUpper || c.isDigit || '_' == c ||
  '-' == c || '@' == c

variable {c : Char} {word text : String} {type : TokenType} {before : Position}

/-! ## The lexer -/

theorem keywords_lexer :
    Definition.parser.lexer.keywords = types.types.filter (·.kind.isKeyword) := rfl

theorem words_lexer : Definition.parser.lexer.words = types.types.filter (·.kind.isWord) := rfl

theorem separators_lexer :
    Definition.parser.lexer.splitter.separators = types.types.filter (·.kind.isSeparator) := rfl

theorem known_of_mem (h : type ∈ types.types) : Known type := by
  obtain ⟨i, hi⟩ := List.mem_iff_getElem?.mp h
  exact known_of_getElem? hi

theorem Known.eq {other : TokenType} (h : Known type) (h' : Known other)
    (hid : type.id = other.id) : type = other := by
  rw [Known, hid] at h
  exact Option.some.inj (h.symm.trans h')

/-- A token has the types that fit its text if these are its types. -/
theorem typed_of_types {t : Token} (hknown : ∀ type ∈ t.types, Known type)
    (h : ∀ type, Known type → (type ∈ t.types ↔ fits type.kind t.text = true)) : Typed t := by
  intro type htype
  rw [Bool.eq_iff_iff, ← h type htype, Token.hasType, List.any_eq_true]
  constructor
  · rintro ⟨other, hmem, hid⟩
    rwa [← (hknown other hmem).eq htype (eq_of_beq hid)]
  · exact fun hmem => ⟨type, hmem, beq_self_eq_true _⟩

/-! ## Plain words -/

theorem isPlainChar_of_isPlain (h : isPlain c = true) : Definition.parser.lexer.IsPlainChar c := by
  have hnot : ∀ d, isPlain d = false → (c == d) = false := fun d hd =>
    beq_eq_false_iff_ne.mpr fun heq => absurd ((heq ▸ h).symm.trans hd) nofun
  have hnot' : ∀ d, isPlain d = false → (d == c) = false := fun d hd => by rw [BEq.comm, hnot d hd]
  refine ⟨?_, ?_, ?_⟩
  · simp only [Text.isBlank, hnot '\t' rfl, hnot '\n' rfl, hnot '\x0b' rfl, hnot '\x0c' rfl,
      hnot ' ' rfl, Bool.or_self]
  · simp only [isQuote, hnot '\x27' rfl, hnot '\x22' rfl, Bool.or_self]
  · show (some '#' == some c || some '<' == some c) = false
    rw [Option.some_beq_some, Option.some_beq_some, hnot' '#' rfl, hnot' '<' rfl, Bool.or_self]

/-- What the types of definitions are: words, the literal, plain keywords for which case
counts, and markers that have no white space, no quote, no start of a comment and some
character that no plain word has. -/
def isWellSpelt : TokenKind → Bool
  | .word .. | .literal => true
  | .keyword text caseSensitive => caseSensitive && !text.toList.isEmpty && text.toList.all isPlain
  | .separator marker _ =>
    (marker.toList.all fun c => !Text.isBlank c && !isQuote c &&
      !Definition.parser.lexer.startsComment c && c != escapeChar) && marker.toList.any (!isPlain ·)
  | .leading _ | .trailing _ | .patternSeparator .. => false

theorem isWellSpelt_of_mem (h : type ∈ types.types) : isWellSpelt type.kind = true :=
  have hall : types.types.all (isWellSpelt ·.kind) = true := by decide
  List.all_eq_true.mp hall type h

/-- The separators are markers without quotes, and each has a character that no plain word has. -/
theorem exists_of_mem_separators {sep : TokenType}
    (h : sep ∈ Definition.parser.lexer.splitter.separators) :
    ∃ marker tight, sep.kind = .separator marker tight ∧ Bare marker.toList ∧
      ∃ c ∈ marker.toList, isPlain c = false := by
  rw [separators_lexer, List.mem_filter] at h
  have hspelt := isWellSpelt_of_mem h.1
  cases hkind : sep.kind with
  | separator marker tight =>
    simp only [hkind, isWellSpelt, Bool.and_eq_true, List.all_eq_true, List.any_eq_true,
      Bool.not_eq_true', bne_iff_ne] at hspelt
    exact ⟨marker, tight, rfl, fun c hc => ⟨(hspelt.1 c hc).1.1.2, (hspelt.1 c hc).2⟩, hspelt.2⟩
  | _ => simp [hkind, TokenKind.isSeparator, isWellSpelt] at h hspelt

theorem bareMarkers_lexer : Definition.parser.lexer.splitter.BareMarkers := fun _ hsep =>
  let ⟨marker, tight, hkind, hbare, _⟩ := exists_of_mem_separators hsep
  ⟨marker, tight, hkind, hbare⟩

/-- A plain word is no quoted text. -/
theorem not_isLiteralText_of_plain (hword : ∀ c ∈ word.toList, isPlain c = true) :
    isLiteralText word.toList = false := by
  cases htext : word.toList with
  | nil => rfl
  | cons c cs =>
    have hquote := (isPlainChar_of_isPlain (hword c (htext ▸ List.mem_cons_self))).2.1
    rw [isLiteralText, hquote, Bool.false_and]

/-- A plain word is not split. -/
theorem split_plain (hne : word.toList ≠ []) (hword : ∀ c ∈ word.toList, isPlain c = true) :
    Definition.parser.lexer.splitter.split word.toList = [.plain word.toList] := by
  refine Splitter.split_of_uncut hne fun sep hsep => ?_
  obtain ⟨marker, tight, hkind, -, c, hc, hplain⟩ := exists_of_mem_separators hsep
  cases hcut : sep.kind.cut? word.toList with
  | none => rfl
  | some cut =>
    rw [hkind] at hcut
    obtain ⟨hmarker, htext⟩ := TokenKind.eq_of_cut?_separator hcut
    have hmem : c ∈ word.toList := by
      rw [htext, hmarker]
      simp [hc]
    exact absurd ((hword c hmem).symm.trans hplain) nofun

theorem isPlain_of_isName (h : isName word = true) : ∀ c ∈ word.toList, isPlain c = true :=
  fun c hc => by
  have hc := all_of_isIdentifier (fun c => by grind) h c hc
  rw [isPlain, hc]
  rfl

/-- There are words, keywords for which case counts, the literal and separators. -/
theorem kind_of_mem (h : type ∈ types.types) :
    (∃ text pattern allows, type.kind = .word text pattern allows) ∨
    (∃ text, type.kind = .keyword text true) ∨ type.kind = .literal ∨
    ∃ marker tight, type.kind = .separator marker tight := by
  have hspelt := isWellSpelt_of_mem h
  cases hkind : type.kind with
  | word => exact .inl ⟨_, _, _, rfl⟩
  | keyword =>
    simp only [hkind, isWellSpelt, Bool.and_eq_true] at hspelt
    obtain rfl := hspelt.1.1
    exact .inr (.inl ⟨_, rfl⟩)
  | literal => exact .inr (.inr (.inl rfl))
  | separator => exact .inr (.inr (.inr ⟨_, _, rfl⟩))
  | leading | trailing | patternSeparator => simp [hkind, isWellSpelt] at hspelt

/-- A keyword is found by its text. -/
theorem keyword?_eq_some_iff : Definition.parser.lexer.keyword? word.toList = some type ↔
    type ∈ types.types ∧ type.kind = .keyword word true := by
  have hkeyword : ∀ t ∈ types.types.filter (·.kind.isKeyword), ∃ text,
      t.kind = .keyword text true := by
    intro t ht
    obtain ⟨hmem, hkind⟩ := List.mem_filter.mp ht
    obtain ⟨_, _, _, h⟩ | h | h | ⟨_, _, h⟩ := kind_of_mem hmem
    · exact absurd (h ▸ hkind) nofun
    · exact h
    · exact absurd (h ▸ hkind) nofun
    · exact absurd (h ▸ hkind) nofun
  rw [Lexer.keyword?_eq_some_iff hkeyword (by decide), keywords_lexer, String.ofList_toList]
  constructor
  · rintro ⟨hmem, htext⟩
    obtain ⟨text, hkind⟩ := hkeyword type hmem
    rw [hkind] at htext
    obtain rfl := Option.some.inj htext
    exact ⟨(List.mem_filter.mp hmem).1, hkind⟩
  · rintro ⟨hmem, hkind⟩
    exact ⟨List.mem_filter.mpr ⟨hmem, by rw [hkind]; rfl⟩, by rw [hkind]; rfl⟩

/-- The types of a plain word are those that fit it. -/
theorem mem_plainTypes_iff (hword : ∀ c ∈ word.toList, isPlain c = true) (htype : Known type) :
    type ∈ Definition.parser.lexer.plainTypes word.toList ↔ fits type.kind word = true := by
  rw [Lexer.plainTypes, List.mem_append, Option.mem_toList, keyword?_eq_some_iff, words_lexer,
    List.mem_filter, List.mem_filter]
  obtain ⟨_, _, _, hkind⟩ | ⟨text, hkind⟩ | hkind | ⟨marker, tight, hkind⟩ := kind_of_mem htype.mem
  · simp [hkind, htype.mem, TokenKind.isWord, fits]
  · simp only [hkind, htype.mem, TokenKind.isWord, fits, TokenKind.accepts, String.ofList_toList,
      true_and, beq_iff_eq, TokenKind.keyword.injEq, and_true, Bool.false_eq_true, and_false,
      false_and, or_false]
    exact eq_comm
  · simp [hkind, TokenKind.isWord, fits, TokenKind.accepts, not_isLiteralText_of_plain hword]
  · have hne : word ≠ marker := by
      rintro rfl
      have hsep : type ∈ Definition.parser.lexer.splitter.separators := by
        rw [separators_lexer, List.mem_filter, hkind]
        exact ⟨htype.mem, rfl⟩
      obtain ⟨marker, tight, hkind', -, c, hc, hplain⟩ := exists_of_mem_separators hsep
      obtain ⟨rfl, -⟩ := TokenKind.separator.inj (hkind.symm.trans hkind')
      exact absurd ((hword c hc).symm.trans hplain) (by simp)
    simp [hkind, TokenKind.isWord, fits, hne]

theorem known_of_mem_plainTypes (h : type ∈ Definition.parser.lexer.plainTypes word.toList) :
    Known type := by
  rw [Lexer.plainTypes, List.mem_append, Option.mem_toList, keyword?_eq_some_iff, words_lexer,
    List.mem_filter, List.mem_filter] at h
  exact known_of_mem (h.elim And.left fun h => h.1.1)

/-! ## Words -/

theorem within_of_not_mem {q : Char} : ∀ {body : List Char}, q ∉ body → Within q body
  | [], _ => .nil
  | [c], h => .char (fun hc => h (hc ▸ List.mem_cons_self)) (fun _ => nofun) .nil
  | c :: d :: body, h => by
    have htail := fun hmem => h (List.mem_cons_of_mem c hmem)
    by_cases hpair : c = escapeChar ∧ isQuote d = true
    · obtain ⟨rfl, hd⟩ := hpair
      exact .escaped hd (within_of_not_mem fun hmem => htail (List.mem_cons_of_mem d hmem))
    · refine .char
        (fun hc => h (hc ▸ List.mem_cons_self)) (fun hc e he => ?_) (within_of_not_mem htail)
      obtain rfl := Option.some.inj he
      exact Bool.eq_false_iff.mpr fun hd => hpair ⟨hc, hd⟩

/-- What the lexer makes of a word. -/
def Spelt (token : Token) (word : List Char) : Prop := token.text.toList = word ∧ Typed token

/-- A plain word is one token if any type fits it. -/
theorem exists_token_of_plain (hne : word.toList ≠ []) (hword : ∀ c ∈ word.toList, isPlain c = true)
    (htype : Known type) (hfits : fits type.kind word = true) (before : Position) :
    ∃ token, Definition.parser.lexer.classify word.toList before = .ok [token] ∧
      Spelt token word.toList := by
  have htypes : Definition.parser.lexer.plainTypes word.toList ≠ [] :=
    List.ne_nil_of_mem ((mem_plainTypes_iff hword htype).mpr hfits)
  refine ⟨_, Lexer.classify_plain (split_plain hne hword)
    nofun nofun (not_isLiteralText_of_plain hword) htypes before, ?_, typed_of_types ?_ ?_⟩
  · exact String.toList_ofList
  · exact fun _ => known_of_mem_plainTypes
  · intro type htype
    rw [Lexer.token, String.ofList_toList]
    exact mem_plainTypes_iff hword htype

theorem exists_token_of_single (htype : Known type) (hfits : fits type.kind word = true)
    (hword : Admits [type.id] (some word))
    (hclassify : Definition.parser.lexer.classify word.toList before =
      .ok [Definition.parser.lexer.token word.toList [type] before]) :
    ∃ token, Definition.parser.lexer.classify word.toList before = .ok [token] ∧
      Spelt token word.toList := by
  refine ⟨_, hclassify, String.toList_ofList,
    typed_of_types (List.forall_mem_singleton.mpr htype) fun other hother => ?_⟩
  rw [Lexer.token, String.ofList_toList, List.mem_singleton]
  constructor
  · rintro rfl
    exact hfits
  · exact fun hother' => hother.eq htype (List.mem_singleton.mp (hword other hother hother'))

/-- A quoted text is one token. -/
theorem exists_token_of_quote (h : isQuotable text = true) (before : Position) :
    ∃ token, Definition.parser.lexer.classify (quote text).toList before = .ok [token] ∧
      Spelt token (quote text).toList := by
  simp only [isQuotable, Bool.and_eq_true, Bool.not_eq_true', bne_iff_ne, ← Bool.not_eq_true,
    List.contains_iff_mem] at h
  have hsplit : Definition.parser.lexer.splitter.split (quote text).toList =
      [.plain (quote text).toList] := by
    rw [toList_quote]
    exact Splitter.split_literal bareMarkers_lexer rfl rfl (within_of_not_mem h.1) h.2
  have hliteral := isLiteralText_quote text
  exact exists_token_of_single (rfl : Known value) hliteral (admits_quote text)
    (Lexer.classify_literal hsplit rfl hliteral before)

/-- A marker is one token. -/
theorem exists_token_of_separator {tight : Bool} (h : type ∈ types.types)
    (hkind : type.kind = .separator word tight) (before : Position) :
    ∃ token, Definition.parser.lexer.classify word.toList before = .ok [token] ∧
      Spelt token word.toList := by
  have hseparators : types.types.filter (·.kind.isSeparator) = [braceOpen, braceClose, parOpen,
      parClose, colon, comma, assign, bar, semicolon, questionMark, star, plus] := rfl
  have hmem : type ∈ types.types.filter (·.kind.isSeparator) :=
    List.mem_filter.mpr ⟨h, by rw [hkind]; rfl⟩
  rw [hseparators] at hmem
  simp only [List.mem_cons, List.not_mem_nil, or_false] at hmem
  rcases hmem with rfl | rfl | rfl | rfl | rfl | rfl | rfl | rfl | rfl | rfl | rfl | rfl <;>
  · obtain ⟨rfl, rfl⟩ := TokenKind.separator.inj hkind
    exact exists_token_of_single (known_of_mem h) (beq_self_eq_true _) (Sure.admits (by decide)) rfl

namespace IsWord

/-- A fixed text is a keyword or a marker. -/
theorem exists_type (h : word ∈ fixedWords) : ∃ type ∈ types.types,
    type.kind = .keyword word true ∨ ∃ tight, type.kind = .separator word tight := by
  obtain ⟨type, hmem, hfixed⟩ := List.mem_filterMap.mp h
  refine ⟨type, hmem, ?_⟩
  obtain ⟨_, _, _, hkind⟩ | ⟨_, hkind⟩ | hkind | ⟨_, tight, hkind⟩ :=
    kind_of_mem hmem <;> rw [hkind] at hfixed
  · exact absurd hfixed nofun
  · exact .inl (Option.some.inj hfixed ▸ hkind)
  · exact absurd hfixed nofun
  · exact .inr ⟨tight, Option.some.inj hfixed ▸ hkind⟩

theorem plain_of_keyword (h : type ∈ types.types) (hkind : type.kind = .keyword word true) :
    word.toList ≠ [] ∧ ∀ c ∈ word.toList, isPlain c = true := by
  have hspelt := isWellSpelt_of_mem h
  rw [hkind] at hspelt
  simpa [isWellSpelt] using hspelt

theorem plain_of_name (h : isName word = true) :
    word.toList ≠ [] ∧ ∀ c ∈ word.toList, isPlain c = true := by
  refine ⟨fun hnil => ?_, isPlain_of_isName h⟩
  rw [isName, hnil] at h
  cases h

theorem isWord_of_plain (h : word.toList ≠ [] ∧ ∀ c ∈ word.toList, isPlain c = true) :
    Definition.parser.lexer.IsWord word.toList :=
  .plain h.1 fun c hc => isPlainChar_of_isPlain (h.2 c hc)

theorem isWord_of_separator {tight : Bool} (h : type ∈ types.types)
    (hkind : type.kind = .separator word tight) : Definition.parser.lexer.IsWord word.toList := by
  have hspelt := isWellSpelt_of_mem h
  simp only [hkind, isWellSpelt, Bool.and_eq_true, List.all_eq_true, List.any_eq_true,
    Bool.not_eq_true'] at hspelt
  obtain ⟨hall, c, hc, -⟩ := hspelt
  exact .plain (List.ne_nil_of_mem hc) fun c hc =>
    ⟨(hall c hc).1.1.1, (hall c hc).1.1.2, (hall c hc).1.2⟩

/-- A word is a chunk of its own. -/
theorem isWord (h : IsWord word) : Definition.parser.lexer.IsWord word.toList := by
  cases h with
  | name hname => exact isWord_of_plain (plain_of_name hname)
  | fixed hfixed =>
    obtain ⟨type, hmem, hkind | ⟨tight, hkind⟩⟩ := exists_type hfixed
    · exact isWord_of_plain (plain_of_keyword hmem hkind)
    · exact isWord_of_separator hmem hkind
  | quoted htext =>
    simp only [isQuotable, Bool.and_eq_true, Bool.not_eq_true', bne_iff_ne, ← Bool.not_eq_true,
      List.contains_iff_mem] at htext
    rw [toList_quote]
    exact .literal rfl rfl (within_of_not_mem htext.1) htext.2

/-- A word is one token. -/
theorem exists_token (h : IsWord word) (before : Position) :
    ∃ token, Definition.parser.lexer.classify word.toList before = .ok [token] ∧
      Spelt token word.toList := by
  cases h with
  | @name word hname =>
    obtain ⟨hne, hplain⟩ := plain_of_name hname
    exact exists_token_of_plain hne hplain (rfl : Known Meta.name)
      ((accepts_name word).trans hname) before
  | fixed hfixed =>
    obtain ⟨type, hmem, hkind | ⟨tight, hkind⟩⟩ := exists_type hfixed
    · obtain ⟨hne, hplain⟩ := plain_of_keyword hmem hkind
      refine exists_token_of_plain hne hplain (known_of_mem hmem) ?_ before
      rw [hkind]
      exact beq_iff_eq.mpr String.ofList_toList
    · exact exists_token_of_separator hmem hkind before
  | quoted htext => exact exists_token_of_quote htext before

end IsWord

/-! ## The words of a definition -/

theorem IsWord.of_isTokenName (h : isTokenName word = true) : IsWord word :=
  .name (isName_of_isTokenName h)

theorem IsWord.of_isLowerName (h : isLowerName word = true) : IsWord word :=
  .name (isName_of_isRuleName (Bool.and_eq_true_iff.mp h).1)

end GrammarGraph.Meta

namespace GrammarGraph

open GrammarGraph.Meta

theorem Target.isWord_word {target : Target} (h : target.isWritable = true) :
    IsWord target.word := by
  cases target with
  | token name => exact .of_isTokenName h
  | keyword text => exact .quoted h
  | rule name => exact .of_isLowerName h

namespace Item

theorem isWord_of_mem_identWords {ident : Option String} (h : ident.all isName = true) :
    ∀ word ∈ identWords ident, IsWord word := by
  cases ident with
  | none => exact nofun
  | some name =>
    exact List.forall_mem_cons.mpr ⟨.name h, List.forall_mem_singleton.mpr (.fixed (by decide))⟩

theorem isWord_of_mem_multiplicity (multiplicity : Option Multiplicity) :
    ∀ word ∈ multiplicity.toList.map Multiplicity.text, IsWord word := by
  cases multiplicity with
  | none => exact nofun
  | some m => cases m <;> exact List.forall_mem_singleton.mpr (.fixed (by decide))

mutual

theorem isWord_of_mem_words : ∀ {item : Item}, item.isWritable = true →
    ∀ word ∈ item.words, IsWord word
  | .single ident target multiplicity, h => by
    rw [isWritable, Bool.and_eq_true] at h
    rw [words, List.forall_mem_append, List.forall_mem_cons]
    exact ⟨isWord_of_mem_identWords h.1, Target.isWord_word h.2,
      isWord_of_mem_multiplicity multiplicity⟩
  | .group ident branches multiplicity, h => by
    rw [isWritable, Bool.and_eq_true, Bool.and_eq_true] at h
    simp only [words, List.forall_mem_append, List.forall_mem_cons]
    exact ⟨⟨isWord_of_mem_identWords h.1.1, .fixed (by decide), isWord_of_mem_branchesWords h.2⟩,
      .fixed (by decide), isWord_of_mem_multiplicity multiplicity⟩

theorem isWord_of_mem_branchWords : ∀ {items : List Item}, itemsWritable items = true →
    ∀ word ∈ branchWords items, IsWord word
  | [], _ => by
    rw [branchWords]
    exact nofun
  | item :: items, h => by
    rw [itemsWritable, Bool.and_eq_true] at h
    rw [branchWords, List.forall_mem_append]
    exact ⟨isWord_of_mem_words h.1, isWord_of_mem_branchWords h.2⟩

theorem isWord_of_mem_branchesWords :
    ∀ {branches : List (List Item)}, branchesWritable branches = true →
    ∀ word ∈ branchesWords branches, IsWord word
  | [], _ => by
    rw [branchesWords]
    exact nofun
  | branch :: rest, h => by
    simp only [branchesWritable, Bool.and_eq_true] at h
    rw [branchesWords, List.forall_mem_append]
    exact ⟨isWord_of_mem_branchWords h.1.2, isWord_of_mem_furtherWords h.2⟩

theorem isWord_of_mem_furtherWords :
    ∀ {branches : List (List Item)}, branchesWritable branches = true →
    ∀ word ∈ furtherWords branches, IsWord word
  | [], _ => by
    rw [furtherWords]
    exact nofun
  | branch :: rest, h => by
    simp only [branchesWritable, Bool.and_eq_true] at h
    simp only [furtherWords, List.forall_mem_append, List.forall_mem_cons]
    exact ⟨⟨.fixed (by decide), isWord_of_mem_branchWords h.1.2⟩, isWord_of_mem_furtherWords h.2⟩

end

end Item

namespace TokenDecl

theorem isWord_of_mem_flagWords {flags : List (String × Bool)}
    (h : ∀ flag ∈ flags, flag.1 ∈ fixedWords) : ∀ word ∈ flagWords flags, IsWord word := by
  have htruth : ∀ b, IsWord (truthWord b) := fun b => by cases b <;> exact .fixed (by decide)
  cases flags with
  | nil => exact nofun
  | cons flag rest =>
    obtain ⟨hflag, hrest⟩ := List.forall_mem_cons.mp h
    simp only [flagWords, List.forall_mem_append, List.forall_mem_cons, List.forall_mem_flatMap]
    refine ⟨⟨.fixed (by decide), .fixed hflag, .fixed (by decide), htruth _,
        fun other hother => ?_⟩, .fixed (by decide), nofun⟩
    exact ⟨.fixed (by decide), .fixed (hrest other hother), .fixed (by decide), htruth _, nofun⟩

theorem isWord_of_mem_words {d : TokenDecl} (h : d.isWritable = true) :
    ∀ word ∈ d.words, IsWord word := by
  obtain ⟨hname, hvalue⟩ := Bool.and_eq_true_iff.mp h
  have hkind : d.kindWord ∈ fixedWords := by
    rw [kindWord]
    split <;> decide
  have hflags : ∀ flag ∈ d.flags, flag.1 ∈ fixedWords := by
    rw [flags]
    split
    · exact List.forall_mem_singleton.mpr (by decide : "case-sensitive" ∈ fixedWords)
    · exact List.forall_mem_cons.mpr ⟨(by decide : "is-pattern" ∈ fixedWords),
        List.forall_mem_singleton.mpr (by decide : "whitespace-allowed" ∈ fixedWords)⟩
    · exact nofun
  simp only [words, List.forall_mem_append, List.forall_mem_cons, List.forall_mem_map,
    Option.mem_toList]
  refine ⟨⟨⟨.fixed hkind, .of_isTokenName hname, fun value hmem => .quoted ?_⟩,
      isWord_of_mem_flagWords hflags⟩, .fixed (by decide), nofun⟩
  rwa [hmem] at hvalue

end TokenDecl

theorem RuleDecl.isWord_of_mem_words {d : RuleDecl} (h : d.isWritable = true) :
    ∀ word ∈ d.words, IsWord word := by
  simp only [RuleDecl.isWritable, Bool.and_eq_true] at h
  have hroot : ∀ word ∈ if d.root then ["@grammar"] else [], IsWord word := by
    split
    · exact List.forall_mem_singleton.mpr (.fixed (by decide))
    · exact nofun
  simp only [RuleDecl.words, List.forall_mem_append, List.forall_mem_cons]
  exact ⟨⟨hroot, .of_isLowerName h.1.1, .fixed (by decide), Item.isWord_of_mem_branchesWords h.2⟩,
    .fixed (by decide), nofun⟩

namespace Definition

theorem isWord_of_mem_words {d : Definition} (h : d.isWritable = true) :
    ∀ word ∈ d.words, IsWord word := by
  simp only [isWritable, Bool.and_eq_true, List.all_eq_true] at h
  obtain ⟨⟨⟨hline, hblock⟩, htokens⟩, hrules⟩ := h
  have hend : ∀ word ∈ [";"], IsWord word := List.forall_mem_singleton.mpr (.fixed (by decide))
  simp only [words, settingWords, List.forall_mem_append, List.forall_mem_flatMap,
    Option.mem_toList]
  refine ⟨⟨⟨⟨fun start hstart => ?_, fun c hc => ?_⟩, ?_⟩, fun t ht => TokenDecl.isWord_of_mem_words
      (htokens t ht)⟩, fun r hr => RuleDecl.isWord_of_mem_words (hrules r hr)⟩
  · rw [hstart] at hline
    exact List.forall_mem_cons.mpr
      ⟨.fixed (by decide), List.forall_mem_cons.mpr ⟨.quoted hline, hend⟩⟩
  · rw [hc, Option.all_some, Bool.and_eq_true] at hblock
    exact List.forall_mem_cons.mpr ⟨.fixed (by decide), List.forall_mem_cons.mpr ⟨.quoted hblock.1,
      List.forall_mem_cons.mpr ⟨.quoted hblock.2, hend⟩⟩⟩
  · split
    · exact List.forall_mem_cons.mpr
        ⟨.fixed (by decide), List.forall_mem_cons.mpr ⟨.fixed (by decide), hend⟩⟩
    · exact nofun

/-- The text of a definition is read as tokens that stand for its words. -/
theorem spells_print {blank : Char} (hblank : Text.isBlank blank = true) {d : Definition}
    (hd : d.isWritable = true) (source : Option String) :
    ∃ tokens, parser.lexer.tokenizeFrom (d.print blank) source = .ok tokens ∧
      Spells tokens d.words := by
  have hwords : ∀ word ∈ d.words.map String.toList, parser.lexer.IsWord word ∧
      ∀ before, ∃ token, parser.lexer.classify word before = .ok [token] ∧ Spelt token word :=
    List.forall_mem_map.mpr fun word hword =>
      ⟨(isWord_of_mem_words hd word hword).isWord, (isWord_of_mem_words hd word hword).exists_token⟩
  obtain ⟨tokens, htokens, hspelt⟩ := Lexer.tokenizeFrom_words rfl hblank hwords source
  rw [List.forall₂_map_right_iff] at hspelt
  exact ⟨tokens, htokens, hspelt.imp fun token word h => ⟨String.toList_inj.mp h.1, h.2⟩⟩

end Definition

end GrammarGraph
