import GrammarGraph.Proofs.Borders

/-!
# Blanks separate

Outside literals and comments nothing that was read before a blank has an influence on what is read
behind it.  So the tokens of two texts with a blank between them are those of the first and those of
the second (`Lexer.outline_tokenizeFrom_blank`).  This needs markers without blanks, or a comment
could start across the blank, and without quotes, as a quote behind a blank opens a literal even
where it starts a comment.
-/

namespace GrammarGraph

namespace Lexer

variable {lx : Lexer} {text : List Char}

/-- The comment that starts at the front of a text. -/
def commentAt? (lx : Lexer) (text : List Char) : Option Mode :=
  (lx.stream text none).commentMode? lx (lx.stream text none).window.lookahead

/-- A quote at the front of a text that opens a literal and starts a comment. -/
def Clashes (lx : Lexer) (text : List Char) : Prop :=
  lx.literal.isSome = true ∧ text.head?.any isQuote = true ∧ (lx.commentAt? text).isSome = true

instance : Decidable (lx.Clashes text) := inferInstanceAs (Decidable (_ ∧ _ ∧ _))

/-- Markers without quotes leave no doubt whether a quote opens a literal. -/
theorem not_clashes (h : ∀ marker, lx.IsMarker marker → ∀ c ∈ marker, isQuote c = false)
    (text : List Char) : ¬lx.Clashes text := by
  rintro ⟨-, hquote, hcomment⟩
  obtain ⟨mode, hmode⟩ := Option.isSome_iff_exists.mp hcomment
  obtain ⟨-, marker, hmarker, ⟨behind, htext⟩, hlength⟩ := Stream.commentMode?_some hmode
  have hpos := Stream.triggerLength_pos_of_commentMode? hmode
  obtain ⟨q, marker', rfl⟩ := List.exists_cons_of_length_pos (hlength ▸ hpos)
  obtain rfl : (q :: marker') ++ behind = text := htext
  exact absurd hquote (by
    rw [List.cons_append, List.head?_cons, Option.any_some, h _ hmarker q List.mem_cons_self];
      decide)

end Lexer

namespace Stream

variable {lx : Lexer} {s t : Stream} {c w : Char} {cs rest behind : List Char} {mode : Mode}

/-! ## Streams that have nothing open -/

/-- Nothing is collected and no literal is open; this leaves the mode and the rest of the text. -/
structure Clear (lx : Lexer) (mode : Mode) (rest : List Char) (s : Stream) : Prop where
  mode_eq : s.mode = mode
  rest_eq : s.window.rest = rest
  collected : s.collected = []
  openQuote : s.openQuote = none
  size : lx.fillSize ≤ s.window.size

theorem clear_stream (lx : Lexer) (text : List Char) (source : Option String) :
    Clear lx .normal text (lx.stream text source) :=
  ⟨rfl, rfl, rfl, rfl, le_max_left _ _⟩

/-- A quote outside literals opens one. -/
theorem quoteBehind_none (lx : Lexer) (c : Char) :
    quoteBehind lx c none = if lx.literal.isSome && isQuote c then some c else none := by
  unfold quoteBehind
  cases lx.literal <;> simp

namespace Clear

theorem agrees (h : Clear lx mode rest s) (h' : Clear lx mode rest t) : Agrees lx [] s t :=
  ⟨by rw [h.rest_eq, h'.rest_eq, List.append_nil], h'.mode_eq.trans h.mode_eq.symm,
    h'.collected.trans h.collected.symm, h'.openQuote.trans h.openQuote.symm, h.size, h'.size⟩

theorem size_pos (h : Clear lx mode rest s) : 0 < s.window.size :=
  lt_of_lt_of_le Nat.zero_lt_two ((two_le_fillSize lx).trans h.size)

theorem skip (h : Clear lx mode rest s) (mode' : Mode) (n : ℕ) :
    Clear lx mode' (rest.drop n) (Stream.skip { s with mode := mode' } n) :=
  ⟨rfl, congrArg (·.drop n) h.rest_eq, h.collected, h.openQuote, h.size⟩

theorem skipOn (h : Clear lx mode rest s) (n : ℕ) : Clear lx mode (rest.drop n) (s.skip n) :=
  ⟨h.mode_eq, congrArg (·.drop n) h.rest_eq, h.collected, h.openQuote, h.size⟩

theorem setMode (h : Clear lx mode rest s) (mode' : Mode) :
    Clear lx mode' rest { s with mode := mode' } :=
  ⟨rfl, h.rest_eq, h.collected, h.openQuote, h.size⟩

theorem commentMode?_eq (h : Clear lx mode rest s) :
    s.commentMode? lx s.window.lookahead = lx.commentAt? rest := by
  have hagrees := (h.setMode .normal).agrees (clear_stream lx rest none)
  refine hagrees.commentMode? fun mode hmode => ?_
  obtain ⟨-, marker, -, hprefix, hlength⟩ := commentMode?_some hmode
  rw [hlength]
  exact hprefix.length_le.trans (le_of_eq (congrArg List.length h.rest_eq.symm))

theorem enter_normal (h : Clear lx .normal rest s) (mode : Mode) : ∃ t,
    s.enter lx mode = (none, t) ∧ Clear lx mode (rest.drop (triggerLength lx mode)) t := by
  refine ⟨_, ?_, h.skip mode (triggerLength lx mode)⟩
  simp only [enter, h.mode_eq]
  exact flush_of_nil h.collected

/-- A blank is skipped. -/
theorem step_blank (h : Clear lx mode (w :: rest) s) (hmode : mode = .normal ∨ mode = .blanks)
    (hw : Text.isBlank w = true) :
    ∃ t, s.step lx w s.window.lookahead = (none, t) ∧ Clear lx .blanks rest t := by
  rcases hmode with rfl | rfl
  · have hnext : s.nextMode lx w s.window.lookahead = (some .blanks, s) := by
      simp only [nextMode, h.mode_eq, h.openQuote, hw, Option.isNone_none, Bool.and_self, if_true]
    rw [Stream.step, hnext]
    exact h.enter_normal .blanks
  · have hquote : isQuote w = false := by
      by_contra hquote
      exact absurd (not_isBlank_of_isQuote (eq_true_of_ne_false hquote)) (by rw [hw]; decide)
    have hnext : s.nextMode lx w s.window.lookahead = (none, s) := by
      simp only [nextMode, h.mode_eq, h.openQuote, hw, hquote, Option.isNone_none, Bool.and_self,
        Bool.and_false, if_true, Bool.false_eq_true, if_false]
    rw [Stream.step, hnext]
    refine ⟨s.skip 1, ?_, h.skipOn 1⟩
    simp only [consume, h.mode_eq, ne_eq, reduceCtorEq, not_false_eq_true, if_true]

/-- A comment starts, unless a quote is taken for the start of a literal. -/
theorem step_comment {start : Mode} (h : Clear lx mode (c :: rest) s)
    (hmode : mode = .normal ∨ mode = .blanks) (hc : Text.isBlank c = false)
    (hstart : lx.commentAt? (c :: rest) = some start)
    (hclash : mode = .blanks → ¬lx.Clashes (c :: rest)) :
    ∃ t, s.step lx c s.window.lookahead = (none, t) ∧
      Clear lx start ((c :: rest).drop (triggerLength lx start)) t := by
  have hcomment := h.commentMode?_eq.trans hstart
  have hne : start ≠ .normal := (commentMode?_some hcomment).1
  rcases hmode with rfl | rfl
  · have hnext : s.nextMode lx c s.window.lookahead = (some start, s) := by
      simp only [nextMode, h.mode_eq, hc, hcomment, Bool.and_false, Bool.false_eq_true, if_false]
    rw [Stream.step, hnext]
    exact h.enter_normal start
  · have hquote : (lx.literal.isSome && isQuote c) = false := by
      by_contra hquote
      obtain ⟨hliteral, hquote⟩ := Bool.and_eq_true_iff.mp (eq_true_of_ne_false hquote)
      exact hclash rfl ⟨hliteral, hquote, by rw [hstart]; rfl⟩
    have hnext : s.nextMode lx c s.window.lookahead = (some start, s) := by
      simp only [nextMode, h.mode_eq, hc, hquote, hcomment, Bool.false_and, Bool.false_eq_true,
        if_false, Option.some_or]
    rw [Stream.step, hnext]
    refine ⟨_, ?_, h.skip start (triggerLength lx start)⟩
    simp only [enter, h.mode_eq]
    rw [if_neg hne]

/-- Any other character is collected. -/
theorem step_other (h : Clear lx mode (c :: rest) s) (hmode : mode = .normal ∨ mode = .blanks)
    (hc : Text.isBlank c = false) (hstart : lx.commentAt? (c :: rest) = none) :
    s.step lx c s.window.lookahead =
      (none, Stream.collect { s with mode := .normal, openQuote := quoteBehind lx c none }) := by
  have hcomment := h.commentMode?_eq.trans hstart
  obtain ⟨window, mode', collected, before, openQuote, pending, source⟩ := s
  obtain rfl : mode' = mode := h.mode_eq
  obtain rfl : openQuote = none := h.openQuote
  rw [Stream.step, nextMode]
  rcases hmode with rfl | rfl
  · simp only [hc, hcomment, Bool.and_false, Bool.false_eq_true, if_false]
    rw [consume_eq]
    simp [Stream.escapes]
  · rw [quoteBehind_none]
    by_cases hquote : (lx.literal.isSome && isQuote c) = true
    · simp only [hquote, if_true, toggleQuote]
      rfl
    · simp only [hquote, hc, hcomment, Bool.false_and, Bool.false_eq_true, if_false, Option.none_or]
      rfl

/-- A step that gives no chunk. -/
theorem scanAll_of_step (h : Clear lx mode (c :: rest) s)
    (hstep : s.step lx c s.window.lookahead = (none, t)) : (s.scanAll lx).1 = (t.scanAll lx).1 := by
  obtain ⟨seen, hseen⟩ := exists_seen h.size_pos h.rest_eq
  rw [hseen] at hstep
  rw [scanAll_step hseen, hstep]
  rfl

theorem scanAll_nil (h : Clear lx mode [] s) : (s.scanAll lx).1 = [] := by
  rw [scanAll_of_nil h.rest_eq, leftover, flush_of_nil h.collected]
  rfl

/-- What follows is the same behind a blank as at the start of a text. -/
theorem scanAll_eq (h : Clear lx .blanks rest s) (h' : Clear lx .normal rest t)
    (hclash : ¬lx.Clashes rest) : (s.scanAll lx).1 = (t.scanAll lx).1 := by
  cases rest with
  | nil => rw [h.scanAll_nil, h'.scanAll_nil]
  | cons c rest =>
    by_cases hc : Text.isBlank c = true
    · obtain ⟨u, hu, hclear⟩ := h.step_blank (.inr rfl) hc
      obtain ⟨u', hu', hclear'⟩ := h'.step_blank (.inl rfl) hc
      rw [h.scanAll_of_step hu, h'.scanAll_of_step hu', (hclear.agrees hclear').scanAll]
    · have hc := eq_false_of_ne_true hc
      cases hstart : lx.commentAt? (c :: rest) with
      | some start =>
        obtain ⟨u, hu, hclear⟩ := h.step_comment (.inr rfl) hc hstart fun _ => hclash
        obtain ⟨u', hu', hclear'⟩ := h'.step_comment (.inl rfl) hc hstart nofun
        rw [h.scanAll_of_step hu, h'.scanAll_of_step hu', (hclear.agrees hclear').scanAll]
      | none =>
        have hagrees :=
          ((h.setMode .normal).agrees (h'.setMode .normal)).setQuote (quoteBehind lx c none)
        rw [h.scanAll_of_step (h.step_other (.inr rfl) hc hstart),
          h'.scanAll_of_step (h'.step_other (.inl rfl) hc hstart)]
        exact (hagrees.collect (by rw [h.rest_eq]; exact List.cons_ne_nil _ _)).scanAll

end Clear

/-! ## Blanks -/

namespace Agrees

/-- Where markers contain no blanks, no step reads across one. -/
theorem le_rest_step (h : Agrees lx (w :: behind) s t) (hw : Text.isBlank w = true)
    (hmarkers : ∀ marker, lx.IsMarker marker → ∀ c ∈ marker, Text.isBlank c = false)
    (hrest : s.window.rest = c :: cs) :
    (w :: behind).length ≤ (t.step lx c t.window.lookahead).2.window.rest.length := by
  have ht := h.rest_eq_cons hrest
  obtain ⟨n, hn, hreads⟩ := rest_step lx ht
  have hle : n ≤ (c :: cs).length := by
    rcases hreads with rfl | ⟨rfl, q, rest, hcs, hquote⟩ | ⟨marker, hmarker, hprefix, rfl⟩
    · exact Nat.le_add_left 1 _
    · cases cs with
      | nil =>
        obtain rfl := (List.cons.inj hcs).1
        exact absurd (not_isBlank_of_isQuote hquote) (by rw [hw]; decide)
      | cons d ds => exact Nat.le_add_left 2 _
    · by_contra hlt
      rw [ht, ← List.cons_append] at hprefix
      have hlong : c :: cs <+: marker :=
        List.prefix_of_prefix_length_le (List.prefix_append _ _) hprefix (le_of_lt (not_le.mp hlt))
      obtain ⟨across, rfl⟩ := hlong
      have hacross := (List.prefix_append_right_inj _).mp hprefix
      cases across with
      | nil => exact hlt (by rw [List.append_nil])
      | cons d ds =>
        obtain rfl := (List.cons_prefix_cons.mp hacross).1
        exact absurd (hmarkers _ hmarker d (List.mem_append_right _ List.mem_cons_self))
          (by rw [hw]; decide)
  rw [hn, ht, List.length_drop, ← List.cons_append, List.length_append]
  omega

/-- So a scan stops at the blank. -/
theorem rest_scan_blank (h : Agrees lx (w :: behind) s t) (hw : Text.isBlank w = true)
    (hmarkers : ∀ marker, lx.IsMarker marker → ∀ c ∈ marker, Text.isBlank c = false) :
    (t.scan lx (w :: behind).length).2.window.rest = w :: behind := by
  refine step_induction (P := fun s => ∀ t, Agrees lx (w :: behind) s t →
    (t.scan lx (w :: behind).length).2.window.rest = w :: behind) lx 0 h.size_pos.1 ?_ ?_ t h
  · intro s _ hrest t h
    have hnil : s.window.rest = [] := List.length_eq_zero_iff.mp (Nat.le_zero.mp hrest)
    have ht : t.window.rest = w :: behind := by rw [h.rest, hnil, List.nil_append]
    rw [scan_of_le (by rw [ht]), ht]
  · intro s c cs _ hrest hseen ih t h
    obtain ⟨rest, hs⟩ := exists_rest hseen
    have ht := h.rest_eq_cons hs
    obtain ⟨seen, hseen'⟩ := exists_seen h.size_pos.2 ht
    have hstep := (h.step hs (h.le_rest_step hw hmarkers hs)).2
    rw [hseen, hseen'] at hstep
    have hleft : (w :: behind).length < t.window.rest.length := by
      rw [ht]
      simp only [List.length_cons, List.length_append]
      omega
    rw [scan_step hleft hseen']
    exact ih _ hstep

end Agrees

/-- Neither inside a literal nor inside a comment. -/
def Outside (s : Stream) : Prop := s.openQuote = none ∧ (s.mode = .normal ∨ s.mode = .blanks)

instance : Decidable s.Outside := inferInstanceAs (Decidable (_ ∧ _))

theorem outside_flush : s.flush.2.Outside ↔ s.Outside := by
  unfold flush
  split <;> rfl

theorem Agrees.outside {tail : List Char} (h : Agrees lx tail s t) : s.Outside ↔ t.Outside := by
  rw [Outside, Outside, h.openQuote, h.mode]

/-- A blank ends a chunk. -/
theorem scanAll_blank (hs : s.Outside) (hcollected : s.collected ≠ [] → s.mode = .normal)
    (hsize : lx.fillSize ≤ s.window.size) (hrest : s.window.rest = w :: behind)
    (hw : Text.isBlank w = true) :
    ∃ t, Clear lx .blanks behind t ∧ (s.scanAll lx).1 = s.leftover ++ (t.scanAll lx).1 := by
  by_cases hnil : s.collected = []
  · have hclear : Clear lx s.mode (w :: behind) s := ⟨rfl, hrest, hnil, hs.1, hsize⟩
    obtain ⟨t, hstep, ht⟩ := hclear.step_blank hs.2 hw
    rw [hclear.scanAll_of_step hstep, leftover, flush_of_nil hnil]
    exact ⟨t, ht, rfl⟩
  · have hmode := hcollected hnil
    have hpos : 0 < s.window.size :=
      lt_of_lt_of_le Nat.zero_lt_two ((two_le_fillSize lx).trans hsize)
    obtain ⟨seen, hseen⟩ := exists_seen hpos hrest
    have hnext : s.nextMode lx w (w :: seen) = (some .blanks, s) := by
      simp only [nextMode, hmode, hs.1, hw, Option.isNone_none, Bool.and_self, if_true]
    have hstep : s.step lx w (w :: seen) = (Stream.skip { s with mode := .blanks } 1).flush := by
      rw [Stream.step, hnext]
      simp only [enter, hmode]
      rfl
    have hempty : ¬s.collected.isEmpty = true := by rwa [List.isEmpty_iff]
    have hflush : (Stream.skip { s with mode := .blanks } 1).flush = (some ⟨s.collected.reverse,
        s.chunkBefore⟩, Stream.skip { s with mode := .blanks, collected := [] } 1) := if_neg hempty
    rw [scanAll_step hseen, hstep, hflush, leftover, flush, if_neg hempty]
    exact ⟨Stream.skip { s with mode := .blanks, collected := [] } 1,
      ⟨rfl, congrArg (·.drop 1) hrest, rfl, hs.1, hsize⟩, rfl⟩

/-- Behind any scan the stream is somewhere in its text. -/
theorem exists_at_scan (lx : Lexer) (text : List Char) (source : Option String) (left : ℕ) :
    ∃ passed gap, At lx text source passed gap ((lx.stream text source).scan lx left).2 := by
  refine scan_induct (P := fun s => ∃ passed gap, At lx text source passed gap s) left
    ⟨[], [], at_stream lx text source⟩ (idle_stream lx text source).size_pos ?_
  rintro s c cs ⟨passed, gap, hat⟩ hseen
  have hgives := hat.step hseen
  generalize s.step lx c (c :: cs) = result at hgives ⊢
  cases hgives with
  | more ht => exact ⟨_, _, ht⟩
  | chunk _ _ _ ht _ => exact ⟨_, _, ht⟩

end Stream

/-- Tokenizing two texts with a blank between them gives the tokens of the first and those of the
second, if the first one leaves the stream outside literals and comments. -/
theorem Lexer.outline_tokenizeFrom_blank {lx : Lexer} {a b : List Char} {w : Char}
    (source : Option String) (hw : Text.isBlank w = true) (hmarkers : ∀ marker, lx.IsMarker marker →
      ∀ c ∈ marker, Text.isBlank c = false ∧ isQuote c = false)
    (houtside : ((lx.stream a source).results lx).2.Outside) :
    outline ParseError.text (lx.tokenizeFrom (a ++ w :: b) source) = do
      let front ← outline ParseError.text (lx.tokenizeFrom a source)
      let back ← outline ParseError.text (lx.tokenizeFrom b source)
      return front ++ back := by
  have hagrees := Stream.agrees_stream lx a (w :: b) source
  have hstands := hagrees.rest_scan_blank hw fun marker hmarker c hc =>
    (hmarkers marker hmarker c hc).1
  obtain ⟨htexts, hborder⟩ := hagrees.scan hstands
  obtain ⟨passed, gap, hat⟩ := Stream.exists_at_scan lx a source 0
  rw [(lx.outline_tokenizeFrom a source).2] at houtside
  have hout := hborder.outside.mp (Stream.outside_flush.mp houtside)
  obtain ⟨t, ht, hblank⟩ := Stream.scanAll_blank hout
    (by rw [hborder.collected, hborder.mode]; exact hat.mode) hborder.size_right hstands hw
  have hback : (t.scanAll lx).1 = ((lx.stream b source).scanAll lx).1 :=
    ht.scanAll_eq (Stream.clear_stream lx b source)
      (Lexer.not_clashes (fun marker hmarker c hc => (hmarkers marker hmarker c hc).2) b)
  have hfront : ((lx.stream a source).scanAll lx).1 =
      ((lx.stream a source).scan lx 0).1 ++ ((lx.stream a source).scan lx 0).2.leftover := rfl
  have hjoint : ((lx.stream (a ++ w :: b) source).scanAll lx).1 =
      ((lx.stream a source).scanAll lx).1 ++ ((lx.stream b source).scanAll lx).1 := by
    rw [Stream.scanAll_scan (w :: b).length hagrees.size_pos.2, hblank, hback, ← hborder.leftover,
      ← htexts, hfront, List.append_assoc]
  rw [(lx.outline_tokenizeFrom _ source).1, hjoint, lx.outlineOf_append,
    (lx.outline_tokenizeFrom a source).1, (lx.outline_tokenizeFrom b source).1]
  rfl

namespace Sample

/-- Literals, two words and line comments. -/
def quoting : Lexer :=
  (Lexer.ofTypes [⟨1, .keyword "x" true⟩, ⟨2, .keyword "y" true⟩,
      ⟨3, .literal⟩]).setLineComment "//"

theorem isMarker_quoting {marker : List Char} (h : quoting.IsMarker marker) :
    marker = ['/', '/'] := by
  cases h with
  | line h => exact (Option.some.inj h).symm
  | start h | stop h => exact absurd h nofun

/-- A comment and a literal in front of a blank, a literal right behind it. -/
theorem outline_tokenizeFrom_blank_quoting :
    (outline ParseError.text (quoting.tokenizeFrom ("x // y\n'x y'".toList ++ ' ' ::
        "'y' x".toList) none)).toOption.map (·.map Prod.fst) = some ["x", "'x y'", "'y'", "x"] := by
  have houtside : ((quoting.stream "x // y\n'x y'".toList none).results quoting).2.Outside := by
    decide +kernel
  rw [Lexer.outline_tokenizeFrom_blank none rfl ?_ houtside]
  · decide +kernel
  · intro marker hmarker
    rw [isMarker_quoting hmarker]
    intro c hc
    obtain rfl : c = '/' := by simpa using hc
    exact ⟨rfl, rfl⟩

end Sample

end GrammarGraph
