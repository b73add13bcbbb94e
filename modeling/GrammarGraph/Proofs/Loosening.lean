import GrammarGraph.Proofs.Placing
import GrammarGraph.Proofs.Quotes
import GrammarGraph.Proofs.Scanning

/-!
# Lexing with looser separators

Only the pattern that a whole text is held against tells a tight separator from a plain one.  A
lexer cuts with the other pattern, so it gives the same tokens with every separator made plain,
apart from what their types are called (`Lexer.tokenizeFrom_loosened`).
-/

namespace GrammarGraph

/-- The kind without the demand for text on both sides. -/
def TokenKind.loosened : TokenKind → TokenKind
  | separator marker _ => separator marker false
  | kind => kind

def TokenType.loosened (t : TokenType) : TokenType := { t with kind := t.kind.loosened }

def Token.loosened (t : Token) : Token := { t with types := t.types.map TokenType.loosened }

def Span.loosened (s : Span) : Span := { s with separator := s.separator.map TokenType.loosened }

def Splitter.loosened (sp : Splitter) : Splitter :=
  { sp with separators := sp.separators.map TokenType.loosened }

def Lexer.loosened (lx : Lexer) : Lexer := { lx with splitter := lx.splitter.loosened }

theorem TokenType.loosened_eq {t : TokenType} (h : t.kind.isSeparator = false) :
    t.loosened = t := by
  obtain ⟨id, kind⟩ := t
  cases kind with
  | separator => exact absurd h nofun
  | _ => rfl

theorem TokenKind.cut?_loosened (kind : TokenKind) : kind.loosened.cut? = kind.cut? := by
  cases kind <;> rfl

/-! ## Spans -/

namespace Span

variable {sep : TokenType} {spans : List Span}

@[simp] theorem text_loosened (s : Span) : s.loosened.text = s.text := rfl

@[simp] theorem isSeparator_loosened (s : Span) : s.loosened.isSeparator = s.isSeparator :=
  Option.isSome_map

@[simp] theorem flatMap_text_loosened (spans : List Span) :
    (spans.map loosened).flatMap text = spans.flatMap text := by
  rw [List.flatMap_map]
  rfl

theorem ofText_loosened (text : List Char) : (ofText text).map loosened = ofText text := by
  cases text <;> rfl

theorem splitText_loosened (sep : TokenType) (fuel : Nat) (text : List Char) :
    splitText sep.loosened fuel text = (splitText sep fuel text).map loosened := by
  induction fuel generalizing text with
  | zero => exact (ofText_loosened text).symm
  | succ fuel ih =>
    cases text with
    | nil => rfl
    | cons c cs =>
      have hcut : sep.loosened.kind.cut? (c :: cs) = sep.kind.cut? (c :: cs) :=
        congrFun (TokenKind.cut?_loosened sep.kind) _
      rw [splitText, splitText, hcut]
      cases sep.kind.cut? (c :: cs) with
      | none => rfl
      | some cut =>
        simp only [ih, List.map_append, List.map_cons]
        rfl

theorem splitAll_loosened (sep : TokenType) (spans : List Span) :
    splitAll sep.loosened (spans.map loosened) = (splitAll sep spans).map loosened := by
  rw [splitAll, splitAll, List.flatMap_map, List.map_flatMap]
  congr 1
  funext s
  rw [isSeparator_loosened, text_loosened]
  split
  · rfl
  · exact splitText_loosened sep _ _

theorem foldl_splitAll_loosened (separators : List TokenType) (spans : List Span) :
    (separators.map TokenType.loosened).foldl (fun spans sep => splitAll sep spans)
      (spans.map loosened) =
      (separators.foldl (fun spans sep => splitAll sep spans) spans).map loosened := by
  induction separators generalizing spans with
  | nil => rfl
  | cons sep separators ih =>
    rw [List.map_cons, List.foldl_cons, List.foldl_cons, splitAll_loosened, ih]

theorem demote_loosened (left : List Char) (spans : List Span) :
    demote left (spans.map loosened) = (demote left spans).map loosened := by
  induction spans generalizing left with
  | nil => rfl
  | cons s spans ih =>
    rw [List.map_cons, demote_cons, demote_cons, List.map_cons, text_loosened, ih, demoted, demoted,
      flatMap_text_loosened, List.isEmpty_map]
    split <;> rfl

theorem merge_loosened (spans : List Span) :
    merge (spans.map loosened) = (merge spans).map loosened := by
  induction spans with
  | nil => rfl
  | cons s spans ih =>
    rw [List.map_cons, merge, merge, ih]
    cases merge spans with
    | nil => rfl
    | cons t ts =>
      simp only [List.map_cons, isSeparator_loosened]
      split <;> rfl

end Span

theorem Splitter.split_loosened (sp : Splitter) (text : List Char) :
    sp.loosened.split text = (sp.split text).map Span.loosened := by
  have hcutUp : sp.loosened.cutUp text = (sp.cutUp text).map Span.loosened := by
    rw [cutUp, cutUp, ← Span.foldl_splitAll_loosened, Span.ofText_loosened]
    rfl
  rw [split_eq, split_eq, hcutUp, ← Span.merge_loosened]
  congr 1
  show (if sp.literalAware then _ else _) = _
  split
  · exact Span.demote_loosened [] _
  · rfl

/-! ## Chunks -/

namespace Lexer

/-- All types that are not among the separators. -/
def others (lx : Lexer) : List TokenType :=
  lx.literal.toList ++ (lx.leading ++ (lx.trailing ++ (lx.keywords ++ lx.words)))

/-- Separators are nowhere else. -/
def Filed (lx : Lexer) : Prop := ∀ t ∈ lx.others, t.kind.isSeparator = false

variable {lx : Lexer} {t u : TokenType}

theorem Sorts.filed {types : List TokenType} (h : lx.Sorts types) : lx.Filed := by
  intro t ht
  have hother : (t.kind.isLiteral || t.kind.isLeading || t.kind.isTrailing || t.kind.isKeyword ||
      t.kind.isWord) = true := by
    simp only [others, List.mem_append, Option.mem_toList, h.keywords, h.words,
      List.mem_filter] at ht
    rcases ht with ht | ht | ht | ht | ht
    · simp [(h.literal t ht).2]
    · simp [(h.leading t ht).2]
    · simp [(h.trailing t ht).2]
    · simp [ht.2]
    · simp [ht.2]
  cases hkind : t.kind with
  | separator | patternSeparator =>
    rw [hkind] at hother
    exact absurd hother Bool.false_ne_true
  | _ => rfl

/-- Every lexer for some types has its separators in the one place. -/
theorem filed_ofTypes (types : List TokenType) : (ofTypes types).Filed :=
  (sorts_ofTypes types).filed

/-! ### Classifying -/

section

variable {within within' : List Char → Position → Except UnknownSpan (List Token)}

/-- A token of types that are not separators stays as it is. -/
theorem Filed.loosened_token (h : lx.Filed) {types : List TokenType}
    (htypes : ∀ t ∈ types, t ∈ lx.others) (text : List Char) (before : Position) :
    (lx.token text types before).loosened = lx.token text types before := by
  have hmap : types.map TokenType.loosened = types := calc
    types.map TokenType.loosened = types.map id :=
      List.map_congr_left fun t ht => TokenType.loosened_eq (h t (htypes t ht))
    _ = types := List.map_id types
  rw [Token.loosened, token, hmap]

theorem mem_others_of_mem_plainTypes {text : List Char} (h : t ∈ lx.plainTypes text) :
    t ∈ lx.others := by
  simp only [others, List.mem_append]
  rcases List.mem_append.mp h with hkeyword | hword
  · have hkeywords : t ∈ lx.keywords := by
      rcases Option.or_eq_some_iff.mp (Option.mem_toList.mp hkeyword) with hfind | ⟨-, hfind⟩
      · exact List.mem_of_find?_eq_some hfind
      · exact List.mem_of_find?_eq_some hfind
    exact .inr (.inr (.inr (.inl hkeywords)))
  · exact .inr (.inr (.inr (.inr (List.mem_filter.mp hword).1)))

theorem classifySpan_loosened (hlx : lx.Filed)
    (hwithin : ∀ text before, within' text before = (within text before).map (·.map Token.loosened))
    (text : List Char) (before : Position) : lx.loosened.classifySpan within' text before =
      (lx.classifySpan within text before).map (·.map Token.loosened) := by
  have hone {t : TokenType} (ht : t ∈ lx.others) (text : List Char) (before : Position) :
      (lx.token text [t] before).loosened = lx.token text [t] before :=
    hlx.loosened_token (List.forall_mem_singleton.mpr ht) text before
  have hlists : lx.others =
      lx.literal.toList ++ (lx.leading ++ (lx.trailing ++ (lx.keywords ++ lx.words))) := rfl
  -- besides the splitter both lexers are the same
  show lx.classifySpan within' text before = _
  unfold classifySpan
  split
  · next t ht =>
    have hmem : t ∈ lx.others := by
      rw [hlists]
      exact List.mem_append_left _ (Option.mem_toList.mpr (Option.filter_eq_some_iff.mp ht).1)
    simp only [Except.map, List.map_cons, List.map_nil, hone hmem]
  · split
    · next t rest hfind =>
      have hmem : t ∈ lx.others := by simp [hlists, (exists_of_findSome? hfind).1]
      simp only [hwithin]
      cases within rest _ with
      | error u => rfl
      | ok tokens => simp only [Except.map, List.map_cons, hone hmem]
    · split
      · next t rest hfind =>
        have hmem : t ∈ lx.others := by simp [hlists, (exists_of_findSome? hfind).1]
        simp only [hwithin]
        cases within rest _ with
        | error u => rfl
        | ok tokens =>
          simp only [Except.map, List.map_append, List.map_cons, List.map_nil, hone hmem]
      · split
        · rfl
        · simp only [Except.map, List.map_cons, List.map_nil,
            hlx.loosened_token (fun t ht => mem_others_of_mem_plainTypes ht)]

theorem map_loosened_append (first rest : Except UnknownSpan (List Token)) :
    (do
      let tokens ← first.map (·.map Token.loosened)
      let more ← rest.map (·.map Token.loosened)
      return tokens ++ more) = (do
      let tokens ← first
      let more ← rest
      return tokens ++ more : Except UnknownSpan (List Token)).map (·.map Token.loosened) := by
  cases first with
  | error u => rfl
  | ok tokens =>
    cases rest with
    | error u => rfl
    | ok more => exact congrArg Except.ok List.map_append.symm

theorem classifySpans_loosened (hlx : lx.Filed)
    (hwithin : ∀ text before, within' text before = (within text before).map (·.map Token.loosened))
    (spans : List Span) (before : Position) :
    lx.loosened.classifySpans within' (spans.map Span.loosened) before =
      (lx.classifySpans within spans before).map (·.map Token.loosened) := by
  induction spans generalizing before with
  | nil => rfl
  | cons s spans ih =>
    obtain ⟨text, separator⟩ := s
    rw [List.map_cons, classifySpans, classifySpans]
    cases separator with
    | some sep =>
      refine Eq.trans ?_ (map_loosened_append _ _)
      rw [← ih]
      rfl
    | none =>
      refine Eq.trans ?_ (map_loosened_append _ _)
      rw [← ih, ← classifySpan_loosened hlx hwithin]
      rfl

theorem classifyText_loosened (hlx : lx.Filed) (fuel : Nat) (text : List Char) (before : Position) :
    lx.loosened.classifyText fuel text before =
      (lx.classifyText fuel text before).map (·.map Token.loosened) := by
  induction fuel generalizing text before with
  | zero => rfl
  | succ fuel ih =>
    rw [classifyText, classifyText]
    show lx.loosened.classifySpans _ (lx.splitter.loosened.split text) before = _
    rw [Splitter.split_loosened, classifySpans_loosened hlx ih]

end

end Lexer

/-! ## Texts -/

namespace Stream

variable {lx : Lexer}

theorem readChunk_loosened (lx : Lexer) (fuel : Nat) (s : Stream) :
    s.readChunk lx.loosened fuel = s.readChunk lx fuel := by
  induction fuel generalizing s with
  | zero => rfl
  | succ fuel ih =>
    rw [readChunk, readChunk]
    simp only [ih]
    rfl

theorem ofChunk_loosened (hlx : lx.Filed) (source : Option String) (chunk : Chunk) :
    ofChunk lx.loosened source chunk = (ofChunk lx source chunk).map (·.map Token.loosened) := by
  unfold ofChunk Lexer.classify
  rw [Lexer.classifyText_loosened hlx]
  cases lx.classifyText (Lexer.reserve + chunk.text.length + 1) chunk.text chunk.before with
  | error u => rfl
  | ok tokens => simp only [Except.map, List.map_map, Function.comp_def]

theorem drain_loosened (hlx : lx.Filed) (fuel : Nat) (s : Stream) :
    (s.drain lx.loosened fuel).1 = (s.drain lx fuel).1.map (·.map Token.loosened) := by
  induction fuel generalizing s with
  | zero => rfl
  | succ fuel ih =>
    rw [drain, drain, nextChunk, readChunk_loosened, ← nextChunk]
    rcases s.nextChunk lx with ⟨_ | chunk, t⟩
    · rfl
    · simp only [ih, ofChunk_loosened hlx, List.map_append]

end Stream

theorem mapM_id_map {ε α β : Type} (f : α → β) (l : List (Except ε α)) :
    (l.map (·.map f)).mapM id = (l.mapM id).map (·.map f) := by
  induction l with
  | nil => rfl
  | cons r l ih =>
    rw [List.map_cons, List.mapM_cons, List.mapM_cons, ih]
    cases r with
    | error e => rfl
    | ok x => cases l.mapM id <;> rfl

/-- Whether separators are tight makes no difference to the tokens of a text, or to its error. -/
theorem Lexer.tokenizeFrom_loosened {lx : Lexer} (hlx : lx.Filed) (text : List Char)
    (source : Option String) : lx.loosened.tokenizeFrom text source =
      (lx.tokenizeFrom text source).map (·.map Token.loosened) := by
  have hresults : ∀ lx : Lexer, lx.tokenizeFrom text source = ((lx.stream text source).drain lx
        ((lx.stream text source).window.rest.length + 1)).1.mapM id := by
    intro lx
    rw [tokenizeFrom, Stream.fst_results_of_pending_nil lx rfl]
  rw [hresults, hresults, ← mapM_id_map, ← Stream.drain_loosened hlx]
  rfl

end GrammarGraph
