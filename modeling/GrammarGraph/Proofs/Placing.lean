import GrammarGraph.Proofs.Cuts
import GrammarGraph.Proofs.Gaps

/-!
# Where tokens stand

The tokens of a chunk are the pieces it consists of (`Lexer.Tiles`), so those of a text stand in it
one behind the other with gaps between them, and start and stop where the walk over the text says
(`Lexer.laid_of_tokenizeFrom`).
-/

namespace GrammarGraph

/-- Markers that can be told from nothing, and separators that cut out what is between two texts. -/
structure Lexer.Regular (lx : Lexer) : Prop where
  slices : ∀ sep ∈ lx.splitter.separators, sep.kind.Slices
  leading : ∀ t ∈ lx.leading, t.kind ≠ .leading ""
  trailing : ∀ t ∈ lx.trailing, t.kind ≠ .trailing ""
  tabSize : 0 < lx.tabSize

namespace Lexer

theorem ofTypes_concat (types : List TokenType) (t : TokenType) :
    ofTypes (types ++ [t]) = (ofTypes types).add t :=
  List.foldl_concat _ _ _ _

theorem mem_insertByLength {t u : TokenType} {types : List TokenType}
    (h : t ∈ insertByLength u types) : t = u ∨ t ∈ types := by
  induction types with
  | nil => exact .inl (List.mem_singleton.mp h)
  | cons v types ih =>
    rw [insertByLength] at h
    split at h
    · exact List.mem_cons.mp h
    · rcases List.mem_cons.mp h with rfl | h
      · exact .inr List.mem_cons_self
      · exact (ih h).imp_right (List.mem_cons_of_mem v)

theorem Regular.setTabSize {lx : Lexer} (h : lx.Regular) (tabSize : UInt64) :
    (lx.setTabSize tabSize).Regular :=
  have htabSize : 0 < max tabSize 1 := by
    show 0 < (if tabSize ≤ 1 then 1 else tabSize)
    split
    · decide
    · next hlt => exact UInt64.lt_trans (by decide) (UInt64.not_le.mp hlt)
  ⟨h.slices, h.leading, h.trailing, htabSize⟩

theorem Regular.setLineComment {lx : Lexer} (h : lx.Regular) (marker : String) :
    (lx.setLineComment marker).Regular :=
  ⟨h.slices, h.leading, h.trailing, h.tabSize⟩

theorem Regular.setBlockComment {lx : Lexer} (h : lx.Regular) (start stop : String) :
    (lx.setBlockComment start stop).Regular :=
  ⟨h.slices, h.leading, h.trailing, h.tabSize⟩

theorem Regular.add {lx : Lexer} {t : TokenType} (h : lx.Regular) (ht : t.kind.Slices)
    (hleading : t.kind ≠ .leading "") (htrailing : t.kind ≠ .trailing "") : (lx.add t).Regular := by
  unfold Lexer.add
  split
  · exact ⟨h.slices, h.leading, h.trailing, h.tabSize⟩
  · exact ⟨h.slices, h.leading, h.trailing, h.tabSize⟩
  · exact ⟨h.slices, h.leading, h.trailing, h.tabSize⟩
  · refine ⟨h.slices, fun u hu => ?_, h.trailing, h.tabSize⟩
    rcases mem_insertByLength hu with rfl | hu
    · exact hleading
    · exact h.leading u hu
  · refine ⟨h.slices, h.leading, fun u hu => ?_, h.tabSize⟩
    rcases mem_insertByLength hu with rfl | hu
    · exact htrailing
    · exact h.trailing u hu
  all_goals
    refine ⟨fun u hu => ?_, h.leading, h.trailing, h.tabSize⟩
    rcases mem_insertByLength hu with rfl | hu
    · exact ht
    · exact h.slices u hu

/-- A lexer for types of which none has an empty marker and none is a pattern with several
groups. -/
theorem regular_ofTypes {types : List TokenType}
    (h : ∀ t ∈ types, t.kind.Slices ∧ t.kind ≠ .leading "" ∧ t.kind ≠ .trailing "") :
    (ofTypes types).Regular := by
  have hfold : ∀ (types : List TokenType) {lx : Lexer}, lx.Regular →
      (∀ t ∈ types, t.kind.Slices ∧ t.kind ≠ .leading "" ∧ t.kind ≠ .trailing "") →
      (types.foldl add lx).Regular := by
    intro types
    induction types with
    | nil => exact fun hlx _ => hlx
    | cons t types ih =>
      intro lx hlx h
      obtain ⟨hslices, hleading, htrailing⟩ := h t List.mem_cons_self
      exact ih (hlx.add hslices hleading htrailing) fun u hu => h u (List.mem_cons_of_mem _ hu)
  exact hfold types ⟨nofun, nofun, nofun, by decide⟩ h

/-- The types of the list are where their kinds belong, the keywords and words all of them and in
their order, and the splitter takes note of literals if there are any. -/
structure Sorts (lx : Lexer) (types : List TokenType) : Prop where
  literal : ∀ t ∈ lx.literal, t ∈ types ∧ t.kind.isLiteral = true
  literalAware : lx.literal.isSome = true → lx.splitter.literalAware = true
  leading : ∀ t ∈ lx.leading, t ∈ types ∧ t.kind.isLeading = true
  trailing : ∀ t ∈ lx.trailing, t ∈ types ∧ t.kind.isTrailing = true
  separators : ∀ t ∈ lx.splitter.separators, t ∈ types ∧ t.kind.isSeparator = true
  keywords : lx.keywords = types.filter (·.kind.isKeyword)
  words : lx.words = types.filter (·.kind.isWord)

theorem Sorts.add {lx : Lexer} {types : List TokenType} (h : lx.Sorts types) (t : TokenType) :
    (lx.add t).Sorts (types ++ [t]) := by
  have hkeep : ∀ {p : TokenKind → Bool} {u : TokenType}, u ∈ types ∧ p u.kind = true →
      u ∈ types ++ [t] ∧ p u.kind = true := fun hu => hu.imp_left (List.mem_append_left _)
  have hput : ∀ {p : TokenKind → Bool}
      {old : List TokenType}, (∀ u ∈ old, u ∈ types ∧ p u.kind = true) →
      p t.kind = true → ∀ u ∈ insertByLength t old, u ∈ types ++ [t] ∧ p u.kind = true := by
    intro p old hold ht u hu
    rcases mem_insertByLength hu with rfl | hu
    · exact ⟨List.mem_append_right _ List.mem_cons_self, ht⟩
    · exact hkeep (hold u hu)
  unfold Lexer.add
  split <;> next hkind =>
    constructor
    · first
        | exact fun u hu => hkeep (h.literal u hu)
        | exact fun u hu =>
          Option.some.inj hu ▸ ⟨List.mem_append_right _ List.mem_cons_self, by rw [hkind]; rfl⟩
    · first
        | exact h.literalAware
        | exact fun _ => rfl
    · first
        | exact fun u hu => hkeep (h.leading u hu)
        | exact hput h.leading (by rw [hkind]; rfl)
    · first
        | exact fun u hu => hkeep (h.trailing u hu)
        | exact hput h.trailing (by rw [hkind]; rfl)
    · first
        | exact fun u hu => hkeep (h.separators u hu)
        | exact hput h.separators (by rw [hkind]; rfl)
    · simp [h.keywords, hkind, TokenKind.isKeyword]
    · simp [h.words, hkind, TokenKind.isWord]

theorem sorts_ofTypes (types : List TokenType) : (ofTypes types).Sorts types := by
  induction types using List.reverseRecOn with
  | nil => exact ⟨nofun, nofun, nofun, nofun, nofun, rfl, rfl⟩
  | append_singleton types t ih =>
    rw [ofTypes_concat]
    exact ih.add t

variable {lx : Lexer} {within : List Char → Position → Except UnknownSpan (List Token)}
  {before : Position} {token : Token} {tokens more : List Token}
  {text piece rest passed gap behind : List Char} {types : List TokenType}

/-! ## Tokens of a chunk -/

/-- The tokens are the pieces of a text behind the position. -/
inductive Tiles (lx : Lexer) : Position → List Token → List Char → Prop
  | nil {before : Position} : Tiles lx before [] []
  | cons {before : Position} {token : Token} {tokens : List Token} {piece rest : List Char} :
      piece ≠ [] → token.text = .ofList piece → token.start = before.firstOf lx.tabSize piece →
      token.stop = before.advanceOver lx.tabSize piece →
      Tiles lx (before.advanceOver lx.tabSize piece) tokens rest →
      Tiles lx before (token :: tokens) (piece ++ rest)

theorem tiles_token (hpiece : piece ≠ []) (types : List TokenType) (before : Position) :
    Tiles lx before [lx.token piece types before] piece := by
  have htiles : Tiles lx before [lx.token piece types before] (piece ++ []) :=
    .cons hpiece rfl rfl rfl .nil
  rwa [List.append_nil] at htiles

theorem Tiles.append (h : Tiles lx before tokens text)
    (h' : Tiles lx (before.advanceOver lx.tabSize text) more rest) :
    Tiles lx before (tokens ++ more) (text ++ rest) := by
  induction h with
  | nil => exact h'
  | cons hpiece htext hstart hstop _ ih =>
    rw [List.append_assoc]
    rw [Position.advanceOver_append] at h'
    exact .cons hpiece htext hstart hstop (ih h')

/-- A part of a text behind the position that has some characters, at the
position of the first of them. -/
def Blames (lx : Lexer) (before : Position) (text : List Char) (u : UnknownSpan) : Prop :=
  ∃ left right, text = left ++ u.text ++ right ∧ u.text ≠ [] ∧
    u.position = (before.advanceOver lx.tabSize left).firstOf lx.tabSize u.text

theorem Blames.append_left {u : UnknownSpan}
    (h : lx.Blames (before.advanceOver lx.tabSize text) rest u) :
    lx.Blames before (text ++ rest) u := by
  obtain ⟨left, right, rfl, hne, hposition⟩ := h
  refine ⟨text ++ left, right, by simp only [List.append_assoc], hne, ?_⟩
  rw [hposition, Position.advanceOver_append]

theorem Blames.append_right {u : UnknownSpan} (h : lx.Blames before text u) (rest : List Char) :
    lx.Blames before (text ++ rest) u := by
  obtain ⟨left, right, rfl, hne, hposition⟩ := h
  exact ⟨left, right ++ rest, by simp only [List.append_assoc], hne, hposition⟩

/-- What classifying a text behind the position is to answer. -/
def Answers (lx : Lexer) (before : Position) (text : List Char) :
    Except UnknownSpan (List Token) → Prop
  | .ok tokens => Tiles lx before tokens text
  | .error u => lx.Blames before text u

/-- Of two texts, one behind the other, the first one that is not recognized is blamed. -/
theorem Answers.append {first second : Except UnknownSpan (List Token)}
    (h : lx.Answers before text first)
    (h' : lx.Answers (before.advanceOver lx.tabSize text) rest second) :
    lx.Answers before (text ++ rest) (do
      let tokens ← first; let more ← second; return tokens ++ more) := by
  cases first with
  | error u => exact Blames.append_right h rest
  | ok tokens =>
    cases second with
    | error u => exact Blames.append_left h'
    | ok more => exact Tiles.append h h'

theorem answers_leading (hpiece : piece ≠ []) {second : Except UnknownSpan (List Token)}
    (h : lx.Answers (before.advanceOver lx.tabSize piece) rest second) :
    lx.Answers before (piece ++ rest)
      (second.map fun tokens => lx.token piece types before :: tokens) := by
  cases second with
  | error u => exact Blames.append_left h
  | ok tokens => exact (tiles_token hpiece types before).append h

theorem answers_trailing (hpiece : piece ≠ []) {first : Except UnknownSpan (List Token)}
    (h : lx.Answers before rest first) : lx.Answers before (rest ++ piece) (first.map fun tokens =>
        tokens ++ [lx.token piece types (before.advanceOver lx.tabSize rest)]) := by
  cases first with
  | error u => exact Blames.append_right h piece
  | ok tokens => exact Tiles.append h (tiles_token hpiece types _)

theorem answers_classifySpan (hlx : lx.Regular) (htext : text ≠ []) (hwithin : ∀ rest before,
      rest ≠ [] → rest.length < text.length → lx.Answers before rest (within rest before))
    (before : Position) : lx.Answers before text (lx.classifySpan within text before) := by
  unfold classifySpan
  split
  · exact tiles_token htext _ _
  · split
    · next t rest hfind =>
      obtain ⟨hmem, hright⟩ := exists_of_findSome? hfind
      obtain ⟨marker, hkind, rfl, hne⟩ := TokenKind.exists_of_remainingRight? hright
      have hmarker : marker.toList ≠ [] := fun hnil =>
        hlx.leading t hmem (by rw [hkind, String.toList_eq_nil_iff.mp hnil])
      simp only [List.length_append, Nat.add_sub_cancel, List.take_left]
      refine answers_leading hmarker (hwithin rest _ hne ?_)
      rw [List.length_append]
      exact Nat.lt_add_of_pos_left (List.length_pos_iff.mpr hmarker)
    · split
      · next t rest hfind =>
        obtain ⟨hmem, hleft⟩ := exists_of_findSome? hfind
        obtain ⟨marker, hkind, rfl, hne⟩ := TokenKind.exists_of_remainingLeft? hleft
        have hmarker : marker.toList ≠ [] := fun hnil =>
          hlx.trailing t hmem (by rw [hkind, String.toList_eq_nil_iff.mp hnil])
        rw [List.drop_left]
        refine answers_trailing hmarker (hwithin rest _ hne ?_)
        rw [List.length_append]
        exact Nat.lt_add_of_pos_right (List.length_pos_iff.mpr hmarker)
      · split
        · exact ⟨[], [], by rw [List.nil_append, List.append_nil], htext, rfl⟩
        · exact tiles_token htext _ _

theorem answers_classifySpans (hlx : lx.Regular) {n : Nat} (hwithin : ∀ rest before, rest ≠ [] →
      rest.length < n → lx.Answers before rest (within rest before)) {spans : List Span}
    (hspans : ∀ s ∈ spans, s.text ≠ [] ∧ s.text.length ≤ n) (before : Position) :
    lx.Answers before (spans.flatMap Span.text) (lx.classifySpans within spans before) := by
  induction spans generalizing before with
  | nil => exact .nil
  | cons s spans ih =>
    obtain ⟨hne, hle⟩ := hspans s List.mem_cons_self
    have hmore :=
      ih (fun t ht => hspans t (List.mem_cons_of_mem _ ht)) (before.advanceOver lx.tabSize s.text)
    rw [classifySpans, List.flatMap_cons]
    cases s.separator with
    | some sep =>
      have hfirst : lx.Answers before s.text (.ok [lx.token s.text [sep] before]) :=
        tiles_token hne [sep] before
      exact hfirst.append hmore
    | none =>
      refine Answers.append (answers_classifySpan hlx hne ?_ before) hmore
      exact fun rest before hrest hlt => hwithin rest before hrest (Nat.lt_of_lt_of_le hlt hle)

theorem answers_classifyText (hlx : lx.Regular) {fuel : Nat} {text : List Char} (htext : text ≠ [])
    (hfuel : text.length < fuel) (before : Position) :
    lx.Answers before text (lx.classifyText fuel text before) := by
  induction fuel generalizing text before with
  | zero => exact absurd hfuel (Nat.not_lt_zero _)
  | succ fuel ih =>
    have hsplit := Splitter.flatMap_text_split hlx.slices text
    have hspans : ∀ s ∈ lx.splitter.split text, s.text ≠ [] ∧ s.text.length ≤ fuel := by
      intro s hs
      refine ⟨Splitter.text_ne_nil_of_mem_split htext hs, ?_⟩
      have hpart : s.text.Sublist ((lx.splitter.split text).flatMap Span.text) :=
        List.sublist_flatten_of_mem (List.mem_map_of_mem hs)
      rw [hsplit] at hpart
      exact Nat.le_trans hpart.length_le (Nat.le_of_lt_succ hfuel)
    have hanswers := answers_classifySpans hlx
      (fun rest before hrest hlt => ih hrest hlt before) hspans before
    rwa [hsplit] at hanswers

/-- The tokens of a chunk are the pieces it consists of. -/
theorem answers_classify (hlx : lx.Regular) (htext : text ≠ []) (before : Position) :
    lx.Answers before text (lx.classify text before) :=
  answers_classifyText hlx htext (Nat.lt_succ_of_le (Nat.le_add_left _ _)) before

/-! ## Tokens of a text -/

/-- Position of the last character of a text that starts the input. -/
def walk (lx : Lexer) (text : List Char) : Position := .advanceOver lx.tabSize .beforeText text

theorem walk_append (lx : Lexer) (text rest : List Char) :
    lx.walk (text ++ rest) = (lx.walk text).advanceOver lx.tabSize rest :=
  Position.advanceOver_append _ _ text rest

/-- The position of the first character. -/
theorem firstOf_walk (hpiece : piece ≠ []) :
    (lx.walk passed).firstOf lx.tabSize piece = lx.walk (passed ++ piece.take 1) := by
  obtain ⟨c, cs, rfl⟩ := List.exists_cons_of_ne_nil hpiece
  rw [walk_append]
  rfl

theorem Regular.advanceOver_max (hlx : lx.Regular) {text : List Char} :
    Position.advanceOver (max lx.tabSize 1) .beforeText text = lx.walk text := by
  have hmax : max lx.tabSize 1 = lx.tabSize := by
    show (if lx.tabSize ≤ 1 then 1 else lx.tabSize) = lx.tabSize
    split
    · next hle => exact UInt64.le_antisymm hlx.tabSize hle
    · rfl
  rw [hmax, walk]

/-- Behind what was passed the text is a gap, a token, and so on up to a last gap.  No
token is empty, and each starts and stops where the walk over the text is at its first
and at its last character. -/
inductive Laid (lx : Lexer) : List Char → List Token → List Char → Prop
  | done {passed gap : List Char} : lx.IsGap gap [] → Laid lx passed [] gap
  | token {passed gap piece behind : List Char} {token : Token} {tokens : List Token} :
      lx.IsGap gap (piece ++ behind) → piece ≠ [] → token.text = .ofList piece →
      token.start = lx.walk (passed ++ gap ++ piece.take 1) →
      token.stop = lx.walk (passed ++ gap ++ piece) →
      Laid lx (passed ++ gap ++ piece) tokens behind →
      Laid lx passed (token :: tokens) (gap ++ piece ++ behind)

/-- Between the tokens of a chunk there is nothing. -/
theorem Tiles.laid (h : Tiles lx before tokens text) (hbefore : before = lx.walk passed)
    (hmore : Laid lx (passed ++ text) more behind) :
    Laid lx passed (tokens ++ more) (text ++ behind) := by
  induction h generalizing passed with
  | nil => rwa [List.append_nil] at hmore
  | @cons before token tokens piece rest hpiece htext hstart hstop _ ih =>
    subst hbefore
    rw [← List.append_assoc] at hmore
    have hrest := ih (walk_append lx passed piece).symm hmore
    rw [firstOf_walk hpiece] at hstart
    rw [← walk_append] at hstop
    rw [← List.append_nil passed] at hstart hstop hrest
    have hlaid : Laid lx passed (token :: (tokens ++ more)) ([] ++ piece ++ (rest ++ behind)) :=
      .token .nil hpiece htext hstart hstop hrest
    rwa [List.nil_append, ← List.append_assoc] at hlaid

/-- The tokens of a chunk behind a gap, and those behind the chunk. -/
theorem Tiles.laid_gap (h : Tiles lx (lx.walk (passed ++ gap)) tokens text) (htext : text ≠ [])
    (hgap : lx.IsGap gap (text ++ behind)) (hmore : Laid lx (passed ++ gap ++ text) more behind) :
    Laid lx passed (tokens ++ more) (gap ++ (text ++ behind)) := by
  cases h with
  | nil => exact absurd rfl htext
  | @cons _ token tokens piece rest hpiece hword hstart hstop hrest =>
    rw [firstOf_walk hpiece] at hstart
    rw [← walk_append] at hstop
    rw [← List.append_assoc] at hmore
    rw [List.append_assoc piece, ← List.append_assoc gap]
    rw [List.append_assoc piece] at hgap
    exact .token hgap hpiece hword hstart hstop
      (hrest.laid (walk_append lx (passed ++ gap) piece).symm hmore)

/-- What lexing the rest of a text behind what was passed is to answer. -/
def Places (lx : Lexer) (source : Option String) (passed behind : List Char) :
    Except ParseError (List Token) → Prop
  | .ok tokens => Laid lx passed tokens behind
  | .error e => ∃ left blamed right, behind = left ++ blamed ++ right ∧ blamed ≠ [] ∧
      e = .unknownToken (.ofList blamed) ⟨source, lx.walk (passed ++ left ++ blamed.take 1)⟩

/-- The first error among the results stands for all of them. -/
theorem Places.ofChunk {source : Option String} {chunk : Chunk}
    {results : List (Except ParseError Token)} (hlx : lx.Regular) (htext : chunk.text ≠ [])
    (hgap : lx.IsGap gap (chunk.text ++ behind)) (hbefore : chunk.before = lx.walk (passed ++ gap))
    (hmore : lx.Places source (passed ++ gap ++ chunk.text) behind (results.mapM id)) :
    lx.Places source passed (gap ++ (chunk.text ++ behind))
      ((Stream.ofChunk lx source chunk ++ results).mapM id) := by
  have hanswers := answers_classify hlx htext chunk.before
  unfold Stream.ofChunk
  cases hclassify : lx.classify chunk.text chunk.before with
  | error u =>
    rw [hclassify, hbefore] at hanswers
    obtain ⟨left, right, hchunk, hne, hposition⟩ := hanswers
    rw [← walk_append, firstOf_walk hne, List.append_assoc passed] at hposition
    exact ⟨gap ++ left, u.text, right ++ behind, by simp [hchunk], hne, by
      rw [UnknownSpan.toParseError, hposition]⟩
  | ok tokens =>
    rw [hclassify, hbefore] at hanswers
    simp only
    cases hresults : results.mapM id with
    | ok more =>
      rw [hresults] at hmore
      rw [mapM_id_eq_ok.mp hresults, ← List.map_append, mapM_id_eq_ok.mpr rfl]
      exact Tiles.laid_gap hanswers htext hgap hmore
    | error e =>
      rw [hresults] at hmore
      obtain ⟨left, blamed, right, hbehind, hne, he⟩ := hmore
      rw [mapM_id_append_error hresults]
      exact ⟨gap ++ chunk.text ++ left, blamed, right, by simp [hbehind], hne, by simpa using he⟩

end Lexer

namespace Stream

variable {lx : Lexer} {s : Stream} {text passed gap behind : List Char} {source : Option String}

/-- The tokens that are still to come. -/
theorem At.places {fuel : Nat} (hlx : lx.Regular) (h : At lx text source passed gap s) (hs : s.Idle)
    (hfuel : s.window.rest.length < fuel) :
    lx.Places source passed (gap ++ s.window.rest) ((s.drain lx fuel).1.mapM id) := by
  induction fuel generalizing passed gap s with
  | zero => exact absurd hfuel (Nat.not_lt_zero _)
  | succ fuel ih =>
    have hreads := readsChunk_nextChunk lx hs
    obtain ⟨hgives, -⟩ := h.nextChunk
    have htext := h.text_eq
    rw [hs.collected, List.reverse_nil, List.append_nil, List.append_assoc] at htext
    rw [drain]
    split
    · next t hchunk =>
      rw [hchunk] at hgives hreads
      cases hgives with
      | @more gap' _ hat =>
        have hnil := hreads.rest_eq rfl
        have htext' := hat.text_eq
        have hgap := hat.skipped
        rw [hreads.idle.collected, hnil, List.reverse_nil, List.append_nil] at htext' hgap
        rw [List.append_nil, htext] at htext'
        rw [List.append_cancel_left htext']
        exact .done hgap.isGap
    · next chunk t hchunk =>
      rw [hchunk] at hgives hreads
      cases hgives with
      | @chunk gap' gap'' _ _ hgap hne hbefore hat hcollected =>
        have hlt := hreads.rest_lt chunk rfl hs.collected
        have hmore := ih hat hreads.idle (Nat.lt_of_lt_of_le hlt (Nat.le_of_lt_succ hfuel))
        have htext' := hat.text_eq
        rw [hcollected, List.reverse_nil, List.append_nil, htext, List.append_assoc,
          List.append_assoc, List.append_assoc] at htext'
        rw [List.append_cancel_left htext', ← hat.source_eq]
        rw [← hat.source_eq] at hmore
        exact Lexer.Places.ofChunk hlx hne hgap (hbefore.trans hlx.advanceOver_max) hmore

end Stream

namespace Lexer

variable {lx : Lexer} {text : List Char}

/-- The tokens of a text are laid out in it from its start, and an error blames a part of it. -/
theorem laid_of_tokenizeFrom (hlx : lx.Regular) (text : List Char) (source : Option String) :
    (∀ tokens, lx.tokenizeFrom text source = .ok tokens → lx.Laid [] tokens text) ∧
    ∀ e, lx.tokenizeFrom text source = .error e →
      ∃ left blamed right, text = left ++ blamed ++ right ∧ blamed ≠ [] ∧
        e = .unknownToken (.ofList blamed) ⟨source, lx.walk (left ++ blamed.take 1)⟩ := by
  have hplaces := (Stream.at_stream lx text source).places hlx (Stream.idle_stream lx text source)
    (Nat.lt_succ_self _)
  have htokens : lx.tokenizeFrom text source = ((lx.stream text source).drain lx
        ((lx.stream text source).window.rest.length + 1)).1.mapM id := by
    rw [tokenizeFrom, Stream.fst_results_of_pending_nil lx rfl]
  rw [← htokens] at hplaces
  constructor
  · intro tokens hok
    rwa [hok] at hplaces
  · intro e he
    rwa [he] at hplaces

end Lexer

namespace Sample

def gluedTypes : List TokenType :=
  [⟨1, .keyword "x" true⟩, ⟨2, .literal⟩, ⟨3, .leading "-"⟩, ⟨4, .trailing "!"⟩,
    ⟨5, .separator ";" false⟩]

/-- Marks before and behind names, quoted texts, and statements that end in a semicolon. -/
def glued : Lexer := ((Lexer.ofTypes gluedTypes).setLineComment "//").setTabSize 4

theorem regular_glued : glued.Regular := by
  refine .setTabSize (.setLineComment (Lexer.regular_ofTypes ?_) "//") 4
  simp [gluedTypes, TokenKind.Slices]

/-- Tabs, a literal with a blank and a comment leave the tokens where they are; a text of
unknown type is blamed. -/
theorem laid_of_tokenizeFrom_glued :
    (∃ tokens, glued.tokenizeFrom "-x;\t'a b' // c\nx!".toList none = .ok tokens ∧
      tokens.map Token.text = ["-", "x", ";", "'a b'", "x", "!"] ∧
      glued.Laid [] tokens "-x;\t'a b' // c\nx!".toList) ∧
    ∃ left blamed right, "x; -y;".toList = left ++ blamed ++ right ∧ blamed ≠ [] ∧
      glued.tokenizeFrom "x; -y;".toList none =
        .error (.unknownToken (.ofList blamed) ⟨none, glued.walk (left ++ blamed.take 1)⟩) := by
  have hok : (glued.tokenizeFrom "-x;\t'a b' // c\nx!".toList none).toOption.map
      (·.map Token.text) = some ["-", "x", ";", "'a b'", "x", "!"] := by decide +kernel
  have herror : (glued.tokenizeFrom "x; -y;".toList none).isOk = false := by decide +kernel
  constructor
  · cases hresult : glued.tokenizeFrom "-x;\t'a b' // c\nx!".toList none with
    | error e =>
      rw [hresult] at hok
      exact absurd hok nofun
    | ok tokens =>
      rw [hresult] at hok
      exact ⟨tokens, rfl, Option.some.inj hok,
        (Lexer.laid_of_tokenizeFrom regular_glued _ none).1 tokens hresult⟩
  · cases hresult : glued.tokenizeFrom "x; -y;".toList none with
    | ok tokens =>
      rw [hresult] at herror
      exact absurd herror nofun
    | error e =>
      obtain ⟨left, blamed, right, htext, hne, he⟩ :=
        (Lexer.laid_of_tokenizeFrom regular_glued _ none).2 e hresult
      exact ⟨left, blamed, right, htext, hne, by rw [he]⟩

end Sample

end GrammarGraph
