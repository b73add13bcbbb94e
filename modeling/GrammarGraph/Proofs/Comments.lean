import GrammarGraph.Proofs.Separation

/-!
# Comments act as blanks

Behind a blank, and at the start of a text, a whole comment may be replaced by a blank without any
effect on the tokens (`Lexer.outline_tokenizeFrom_comment`).  There is one exception: among blanks a
quote opens a literal even where it starts a comment, which in front of all other text it does
(`Sample.comment_lost_behind_blank`).
-/

namespace GrammarGraph

namespace Stream

variable {lx : Lexer} {s t : Stream} {c : Char}
  {cs seen rest body start stop : List Char} {mode : Mode}

/-! ## Nothing is left over behind a blank -/

/-- A literal is opened by a quote, and outside literals no blank is collected. -/
structure Tidy (s : Stream) : Prop where
  isQuote : ∀ q, s.openQuote = some q → isQuote q = true
  isBlank : s.openQuote = none → ∀ c, s.collected.head? = some c → Text.isBlank c = false
  collected : s.mode ≠ .normal → s.collected = []

theorem tidy_of_nil (hquote : ∀ q, s.openQuote = some q → isQuote q = true)
    (hnil : s.collected = []) : s.Tidy :=
  ⟨hquote, fun _ _ hc => absurd (hnil ▸ hc) nofun, fun _ => hnil⟩

theorem tidy_collect (hquote : ∀ q, s.openQuote = some q → isQuote q = true)
    (hrest : s.window.rest = c :: cs) (hmode : s.mode = .normal)
    (hc : s.openQuote = none → Text.isBlank c = false) : s.collect.Tidy := by
  unfold collect Window.next?
  rw [hrest]
  refine ⟨hquote, fun hnone d hd => ?_, fun hne => absurd hmode hne⟩
  obtain rfl := Option.some.inj hd
  exact hc hnone

theorem openQuote_flush (s : Stream) : s.flush.2.openQuote = s.openQuote := by
  unfold flush
  split <;> rfl

theorem isQuote_of_quoteBehind {openQuote : Option Char}
    (h : ∀ q, openQuote = some q → isQuote q = true) : ∀ q, quoteBehind lx c openQuote = some q →
      isQuote q = true := by
  intro q hq
  unfold quoteBehind at hq
  split at hq
  · exact h q hq
  · cases openQuote with
    | none =>
      simp only [Option.ite_none_right_eq_some, Option.some.injEq] at hq
      exact hq.2 ▸ hq.1
    | some q' =>
      simp only [Option.ite_none_left_eq_some, Option.some.injEq] at hq
      exact h q (congrArg some hq.2)

/-- Where no literal is open behind a character that was none behind the one
before, or a quote closed it. -/
theorem isBlank_of_quoteBehind {openQuote : Option Char}
    (h : ∀ q, openQuote = some q → isQuote q = true)
    (hc : openQuote = none → Text.isBlank c = false) (hnone : quoteBehind lx c openQuote = none) :
    Text.isBlank c = false := by
  cases openQuote with
  | none => exact hc rfl
  | some q =>
    unfold quoteBehind at hnone
    split at hnone
    · exact absurd hnone nofun
    · simp only [ite_eq_left_iff, reduceCtorEq, imp_false, not_not] at hnone
      exact hnone ▸ not_isBlank_of_isQuote (h q rfl)

/-- Outside literals a blank in the normal mode is not collected. -/
theorem isBlank_of_nextMode (h : (s.nextMode lx c seen).1 = none) (hmode : s.mode = .normal)
    (hnone : s.openQuote = none) : Text.isBlank c = false := by
  by_contra hblank
  simp only [nextMode, hmode, hnone, eq_true_of_ne_false hblank, Option.isNone_none, Bool.and_self,
    if_true] at h
  cases h

/-- A character that ends the blanks opens a literal, or is no blank. -/
theorem isBlank_of_toggled (hmode : s.mode = .blanks) (h : (s.nextMode lx c seen).1 ≠ none)
    (hnone : (s.nextMode lx c seen).2.openQuote = none) : Text.isBlank c = false := by
  simp only [nextMode, hmode] at h hnone
  split at hnone
  · next hquote => exact not_isBlank_of_isQuote (Bool.and_eq_true_iff.mp hquote).2
  · next hquote =>
    rw [if_neg hquote] at h
    split at hnone
    · next hblank =>
      rw [if_pos hblank] at h
      exact absurd rfl h
    · next hblank =>
      by_contra hc
      exact hblank (Bool.and_eq_true_iff.mpr ⟨eq_true_of_ne_false hc, by rw [hnone]; rfl⟩)

theorem isQuote_of_nextMode (lx : Lexer) (c : Char) (seen : List Char)
    (h : ∀ q, s.openQuote = some q → isQuote q = true) :
    ∀ q, (s.nextMode lx c seen).2.openQuote = some q → isQuote q = true := by
  intro q hq
  unfold nextMode at hq
  split at hq
  · split at hq <;> exact h q hq
  · split at hq
    · next hquote =>
      have hc := (Bool.and_eq_true_iff.mp hquote).2
      change toggleQuote c s.openQuote = some q at hq
      unfold toggleQuote at hq
      split at hq
      · exact Option.some.inj hq ▸ hc
      · next q' hopen =>
        split at hq
        · exact absurd hq nofun
        · exact h q (hopen.trans hq)
    · split at hq <;> exact h q hq
  · exact h q hq
  · exact h q hq

theorem collected_nextMode (lx : Lexer) (s : Stream) (c : Char) (seen : List Char) :
    (s.nextMode lx c seen).2.collected = s.collected := by
  unfold nextMode
  split
  · split <;> rfl
  · split
    · rfl
    · split <;> rfl
  · rfl
  · rfl

namespace Tidy

theorem consume (h : s.Tidy) (hrest : s.window.rest = c :: cs)
    (hc : s.mode = .normal → s.openQuote = none → Text.isBlank c = false) :
    (s.consume lx c seen).Tidy := by
  rw [consume_eq]
  split
  · next hescapes =>
    have hopen : s.mode = .normal ∧ s.openQuote.isSome = true := by
      simp only [escapes, Bool.and_eq_true, decide_eq_true_eq] at hescapes
      exact ⟨hescapes.1.1.1.1, hescapes.1.1.2⟩
    have hnever : ∀ {d : Char}, s.openQuote = none → Text.isBlank d = false := fun hnone =>
      absurd hopen.2 (by rw [hnone]; decide)
    have hfirst := tidy_collect h.isQuote hrest hopen.1 hnever
    cases hnext : s.collect.window.rest with
    | nil => rwa [collect_of_nil hnext]
    | cons d ds =>
      obtain ⟨hquote, hmode⟩ : s.collect.openQuote = s.openQuote ∧ s.collect.mode = s.mode := by
        unfold collect
        split <;> exact ⟨rfl, rfl⟩
      exact tidy_collect hfirst.isQuote hnext (hmode.trans hopen.1) fun hnone =>
        hnever (hquote ▸ hnone)
  · split
    · next hmode =>
      exact tidy_collect (isQuote_of_quoteBehind h.isQuote) hrest hmode
        (isBlank_of_quoteBehind h.isQuote (hc hmode))
    · exact ⟨h.isQuote, h.isBlank, h.collected⟩

theorem step (h : s.Tidy) (hrest : s.window.rest = c :: cs) : (s.step lx c seen).2.Tidy := by
  obtain ⟨hwindow, hmode, -⟩ := nextMode_window lx s c seen
  have hquote := isQuote_of_nextMode lx c seen h.isQuote
  have hcollected := collected_nextMode lx s c seen
  cases hnext : (s.nextMode lx c seen).1 with
  | none =>
    rw [step_of_none hnext]
    exact h.consume hrest (isBlank_of_nextMode hnext)
  | some mode =>
    rw [step_of_some hnext, Stream.enter, hmode]
    cases hm : s.mode with
    | normal => exact tidy_of_nil (by rw [openQuote_flush]; exact hquote) (collected_flush _)
    | blanks =>
      simp only
      split
      · next hnormal =>
        refine tidy_collect hquote (by rw [hwindow]; exact hrest) hnormal ?_
        exact isBlank_of_toggled hm (by rw [hnext]; simp)
      · exact tidy_of_nil hquote (hcollected.trans (h.collected (by rw [hm]; simp)))
    | lineComment | blockComment =>
      exact tidy_of_nil hquote (hcollected.trans (h.collected (by rw [hm]; simp)))

end Tidy

theorem tidy_scan (lx : Lexer) (text : List Char) (source : Option String) (left : ℕ) :
    ((lx.stream text source).scan lx left).2.Tidy := by
  refine scan_induct (P := Tidy) left (tidy_of_nil nofun rfl)
    (idle_stream lx text source).size_pos ?_
  intro s c cs hs hseen
  obtain ⟨rest, hrest⟩ := exists_rest hseen
  exact hs.step hrest

/-- Behind a blank outside literals nothing is left over. -/
theorem collected_eq_nil {text : List Char} (source : Option String)
    (hblank : ∀ c, text.getLast? = some c → Text.isBlank c = true)
    (hout : ((lx.stream text source).scan lx 0).2.openQuote = none) :
    ((lx.stream text source).scan lx 0).2.collected = [] := by
  obtain ⟨passed, gap, hat⟩ := exists_at_scan lx text source 0
  have htidy := tidy_scan lx text source 0
  have hrest := rest_scan_zero lx (idle_stream lx text source).size_pos
  have htext := hat.text_eq
  rw [hrest, List.append_nil] at htext
  cases hcollected : ((lx.stream text source).scan lx 0).2.collected with
  | nil => rfl
  | cons c cs =>
    have hlast : text.getLast? = some c := by
      rw [htext, hcollected, List.reverse_cons, ← List.append_assoc, List.getLast?_concat]
    have hc := htidy.isBlank hout c (by rw [hcollected]; rfl)
    exact absurd (hblank c hlast) (by rw [hc]; decide)

end Stream

/-! ## Reading a comment -/

namespace Lexer

/-- The mode that a stream switches to at the start of a text. -/
def startMode? (lx : Lexer) (text : List Char) : Option Mode :=
  text.head?.bind fun c =>
    ((lx.stream text none).nextMode lx c (lx.stream text none).window.lookahead).1

/-- A whole comment that is recognized at the start of a text, which goes on with `behind`: up to
the first linefeed, or up to the first end marker. -/
inductive StartsComment (lx : Lexer) (behind : List Char) : List Char → Prop
  | line {marker body : List Char} : lx.lineComment = some marker → '\n' ∉ body →
      lx.startMode? (marker ++ body ++ ['\n'] ++ behind) = some .lineComment →
      StartsComment lx behind (marker ++ body ++ ['\n'])
  | block {start body stop : List Char} : lx.blockComment = some (start, stop) → stop ≠ [] →
      (∀ k < body.length, ¬stop <+: (body ++ stop).drop k) →
      lx.startMode? (start ++ body ++ stop ++ behind) = some .blockComment →
      StartsComment lx behind (start ++ body ++ stop)

/-- Reading a text in front of `behind` stops at the border, outside literals and comments. -/
def LeavesOutside (lx : Lexer) (text behind : List Char) : Prop :=
  ((lx.stream (text ++ behind) none).scan lx behind.length).2.window.rest = behind ∧
    ((lx.stream (text ++ behind) none).scan lx behind.length).2.Outside

instance (lx : Lexer) (text behind : List Char) : Decidable (lx.LeavesOutside text behind) :=
  inferInstanceAs (Decidable (_ ∧ _))

variable {lx : Lexer} {text behind : List Char} {mode : Mode}

/-- A comment starts where no blank stands, at its marker. -/
theorem commentAt?_of_startMode? (h : lx.startMode? text = some mode) (hmode : mode ≠ .blanks) :
    ∃ c rest, text = c :: rest ∧ Text.isBlank c = false ∧ lx.commentAt? text = some mode := by
  cases text with
  | nil => exact absurd h nofun
  | cons c rest =>
    refine ⟨c, rest, rfl, ?_⟩
    have hclear := Stream.clear_stream lx (c :: rest) none
    change ((lx.stream (c :: rest) none).nextMode lx c
      (lx.stream (c :: rest) none).window.lookahead).1 = some mode at h
    simp only [Stream.nextMode, hclear.mode_eq, hclear.openQuote, Option.isNone_none,
      Bool.true_and] at h
    split at h
    · exact absurd (Option.some.inj h).symm hmode
    · next hblank => exact ⟨eq_false_of_ne_true hblank, h⟩

end Lexer

namespace Stream

variable {lx : Lexer} {s t : Stream} {c : Char}
  {cs seen rest body start stop : List Char} {mode : Mode}

namespace Clear

theorem step_lineComment (h : Clear lx .lineComment (c :: rest) s) :
    ∃ t, s.step lx c seen = (none, t) ∧
    Clear lx (if c = '\n' then .normal else .lineComment) rest t := by
  rw [Stream.step, nextMode]
  simp only [h.mode_eq]
  by_cases hc : c = '\n'
  · simp only [if_pos hc, enter, h.mode_eq]
    exact ⟨_, rfl, h.skip .normal 1⟩
  · simp only [if_neg hc, consume, h.mode_eq, ne_eq, reduceCtorEq, not_false_eq_true, if_true]
    exact ⟨_, rfl, h.skipOn 1⟩

theorem startsWith_stop (h : Clear lx mode rest s) (hmarker : lx.blockComment = some (start, stop))
    (hstop : stop ≠ []) :
    (lx.blockComment.any fun (_, stop) => startsWith s.window.lookahead stop) =
      decide (stop <+: rest) := by
  rw [hmarker, Option.any_some, Bool.eq_iff_iff, decide_eq_true_iff,
    startsWith_iff ((length_le_of_isMarker (.stop hmarker)).trans h.size), h.rest_eq]
  exact and_iff_right hstop

theorem step_endBlock (h : Clear lx .blockComment (c :: rest) s)
    (hmarker : lx.blockComment = some (start, stop)) (hstop : stop ≠ [])
    (hends : stop <+: c :: rest) :
    ∃ t, s.step lx c s.window.lookahead = (none, t) ∧
      Clear lx .normal ((c :: rest).drop stop.length) t := by
  rw [Stream.step, nextMode]
  simp only [h.mode_eq, h.startsWith_stop hmarker hstop, hends, decide_true, if_true, enter]
  rw [hmarker]
  exact ⟨_, rfl, h.skip .normal stop.length⟩

theorem step_blockComment (h : Clear lx .blockComment (c :: rest) s)
    (hmarker : lx.blockComment = some (start, stop)) (hstop : stop ≠ [])
    (hends : ¬stop <+: c :: rest) :
    ∃ t, s.step lx c s.window.lookahead = (none, t) ∧ Clear lx .blockComment rest t := by
  rw [Stream.step, nextMode]
  simp only [h.mode_eq, h.startsWith_stop hmarker hstop, hends, decide_false, Bool.false_eq_true,
    if_false, consume, ne_eq, reduceCtorEq, not_false_eq_true, if_true]
  exact ⟨_, rfl, h.skipOn 1⟩

/-- A line comment ends with its linefeed. -/
theorem scanAll_lineComment (h : Clear lx .lineComment (body ++ '\n' :: rest) s)
    (hbody : '\n' ∉ body) : ∃ t, Clear lx .normal rest t ∧ (s.scanAll lx).1 = (t.scanAll lx).1 := by
  induction body generalizing s with
  | nil =>
    obtain ⟨t, hstep, ht⟩ := h.step_lineComment
    exact ⟨t, ht, h.scanAll_of_step hstep⟩
  | cons c body ih =>
    rw [List.mem_cons, not_or] at hbody
    obtain ⟨hc, hbody⟩ := hbody
    obtain ⟨t, hstep, ht⟩ := h.step_lineComment
    rw [if_neg (Ne.symm hc)] at ht
    obtain ⟨u, hu, htexts⟩ := ih ht hbody
    exact ⟨u, hu, (h.scanAll_of_step hstep).trans htexts⟩

/-- A block comment ends with the first end marker in it. -/
theorem scanAll_blockComment (h : Clear lx .blockComment (body ++ stop ++ rest) s)
    (hmarker : lx.blockComment = some (start, stop)) (hstop : stop ≠ [])
    (hfirst : ∀ k < body.length, ¬stop <+: (body ++ stop).drop k) :
    ∃ t, Clear lx .normal rest t ∧ (s.scanAll lx).1 = (t.scanAll lx).1 := by
  induction body generalizing s with
  | nil =>
    obtain ⟨c, stop', hcons⟩ := List.exists_cons_of_ne_nil hstop
    have hcs : [] ++ stop ++ rest = c :: (stop' ++ rest) := by rw [hcons]; rfl
    rw [hcs] at h
    obtain ⟨t, hstep, ht⟩ :=
      h.step_endBlock hmarker hstop (by rw [← hcs]; exact List.prefix_append _ _)
    rw [← hcs, List.nil_append, List.drop_left] at ht
    exact ⟨t, ht, h.scanAll_of_step hstep⟩
  | cons c body ih =>
    have hends : ¬stop <+: c :: (body ++ stop ++ rest) := by
      intro hprefix
      refine hfirst 0 (Nat.zero_lt_succ _) (List.prefix_of_prefix_length_le hprefix ⟨rest, ?_⟩ ?_)
      · simp
      · simp only [List.drop_zero, List.length_append]
        exact Nat.le_add_left _ _
    obtain ⟨t, hstep, ht⟩ := h.step_blockComment hmarker hstop hends
    obtain ⟨u, hu, htexts⟩ := ih ht fun k hk => hfirst (k + 1) (Nat.succ_lt_succ hk)
    exact ⟨u, hu, (h.scanAll_of_step hstep).trans htexts⟩

/-- Where a comment is recognized the marker in front of it is skipped. -/
theorem scanAll_marker {text : List Char} {start : Mode} (h : Clear lx mode text s)
    (hmode : mode = .normal ∨ mode = .blanks) (hstart : lx.startMode? text = some start)
    (hcomment : start ≠ .blanks) (hclash : mode = .blanks → ¬lx.Clashes text) :
    ∃ t, Clear lx start (text.drop (triggerLength lx start)) t ∧
      (s.scanAll lx).1 = (t.scanAll lx).1 := by
  obtain ⟨c, rest, rfl, hc, hstart⟩ := Lexer.commentAt?_of_startMode? hstart hcomment
  obtain ⟨t, hstep, ht⟩ := h.step_comment hmode hc hstart hclash
  exact ⟨t, ht, h.scanAll_of_step hstep⟩

/-- Reading a whole comment gives no chunk. -/
theorem scanAll_comment {comment behind : List Char} (h : Clear lx mode (comment ++ behind) s)
    (hmode : mode = .normal ∨ mode = .blanks) (hcomment : lx.StartsComment behind comment)
    (hclash : mode = .blanks → ¬lx.Clashes (comment ++ behind)) :
    ∃ t, Clear lx .normal behind t ∧ (s.scanAll lx).1 = (t.scanAll lx).1 := by
  cases hcomment with
  | @line marker body hmarker hbody hstart =>
    have hrest : (marker ++ body ++ ['\n'] ++ behind).drop (triggerLength lx .lineComment) =
        body ++ '\n' :: behind := by
      rw [triggerLength, hmarker]
      simp
    obtain ⟨t, ht, hentered⟩ := h.scanAll_marker hmode hstart (by simp) hclash
    rw [hrest] at ht
    obtain ⟨u, hu, htexts⟩ := ht.scanAll_lineComment hbody
    exact ⟨u, hu, hentered.trans htexts⟩
  | @block start body stop hmarker hstop hfirst hstart =>
    have hrest : (start ++ body ++ stop ++ behind).drop (triggerLength lx .blockComment) =
        body ++ stop ++ behind := by
      rw [triggerLength, hmarker]
      simp
    obtain ⟨t, ht, hentered⟩ := h.scanAll_marker hmode hstart (by simp) hclash
    rw [hrest] at ht
    obtain ⟨u, hu, htexts⟩ := ht.scanAll_blockComment hmarker hstop hfirst
    exact ⟨u, hu, hentered.trans htexts⟩

end Clear

/-- Behind a blank outside literals and comments nothing is open. -/
theorem clear_of_leavesOutside {text behind : List Char} (h : lx.LeavesOutside text behind)
    (hblank : ∀ c, text.getLast? = some c → Text.isBlank c = true) :
    ∃ mode t, Clear lx mode behind t ∧ (mode = .normal ∨ mode = .blanks) ∧
      (text = [] → mode = .normal) ∧ ((lx.stream (text ++ behind) none).scanAll lx).1 =
        ((lx.stream text none).scan lx 0).1 ++ (t.scanAll lx).1 := by
  have hagrees := agrees_stream lx text behind none
  obtain ⟨htexts, hborder⟩ := hagrees.scan h.1
  have hcollected := collected_eq_nil none hblank (hborder.outside.mpr h.2).1
  refine ⟨_, _, ⟨rfl, h.1, hborder.collected.trans hcollected, h.2.1, hborder.size_right⟩, h.2.2,
    ?_, ?_⟩
  · rintro rfl
    rw [hborder.mode, scan_of_le (s := lx.stream [] none) (le_refl 0)]
    rfl
  · rw [scanAll_scan behind.length hagrees.size_pos.2, htexts]

end Stream

/-- Where a text comes from shows in the positions only. -/
theorem Lexer.outline_tokenizeFrom_none (lx : Lexer) (text : List Char) (source : Option String) :
    outline ParseError.text (lx.tokenizeFrom text source) =
      outline ParseError.text (lx.tokenizeFrom text none) := by
  have hagrees := (Stream.clear_stream lx text source).agrees (Stream.clear_stream lx text none)
  rw [(lx.outline_tokenizeFrom text source).1, (lx.outline_tokenizeFrom text none).1,
    hagrees.scanAll]

/-- Among blanks a comment starts where it does in the normal mode, unless a quote stands there. -/
theorem Stream.nextMode_blanks {lx : Lexer} {s : Stream} {c : Char} {seen : List Char}
    {start : Mode} (hopen : s.openQuote = none) (hstart : start ≠ .blanks)
    (hquote : (lx.literal.isSome && isQuote c) = false)
    (h : (nextMode lx { s with mode := .normal } c seen).1 = some start) :
    (nextMode lx { s with mode := .blanks } c seen).1 = some start := by
  simp only [nextMode, hopen, Option.isNone_none, Bool.true_and] at h
  simp only [nextMode, hopen, hquote, Option.isNone_none, Bool.and_true, Bool.false_eq_true,
    if_false]
  split at h
  · exact absurd (Option.some.inj h).symm hstart
  · next hblank =>
    rw [if_neg hblank]
    exact congrArg (·.or (some .normal)) h

/-- A whole comment at the start of a text, or behind a blank outside literals and comments,
acts as a blank, unless it or the text behind it starts with a quote that is also the start of
a comment.  In particular, among blanks a comment starts where it does in the normal mode,
unless a quote stands there. -/
theorem Lexer.outline_tokenizeFrom_comment {lx : Lexer} {a comment b : List Char}
    (source : Option String) (hblank : ∀ c, a.getLast? = some c → Text.isBlank c = true)
    (hcomment : lx.StartsComment b comment) (houtside : lx.LeavesOutside a (comment ++ b))
    (houtside' : lx.LeavesOutside a (' ' :: b)) (hclash : a ≠ [] → ¬lx.Clashes (comment ++ b))
    (hclash' : ¬lx.Clashes b) :
    outline ParseError.text (lx.tokenizeFrom (a ++ comment ++ b) source) =
        outline ParseError.text (lx.tokenizeFrom (a ++ ' ' :: b) source) ∧
      ∀ (s : Stream) (c : Char) (seen : List Char) (start : Mode), s.openQuote = none →
      start ≠ .blanks → (lx.literal.isSome && isQuote c) = false →
        (Stream.nextMode lx { s with mode := .normal } c seen).1 = some start →
        (Stream.nextMode lx { s with mode := .blanks } c seen).1 = some start := by
  refine ⟨?_, fun _ _ _ _ => Stream.nextMode_blanks⟩
  obtain ⟨mode, s, hs, hmode, hnil, htexts⟩ := Stream.clear_of_leavesOutside houtside hblank
  obtain ⟨mode', s', hs', hmode', -, htexts'⟩ := Stream.clear_of_leavesOutside houtside' hblank
  obtain ⟨t, ht, hbehind⟩ := hs.scanAll_comment hmode hcomment (by
    rintro rfl
    exact hclash fun ha => absurd (hnil ha) nofun)
  obtain ⟨t', hstep, ht'⟩ := hs'.step_blank hmode' rfl
  rw [lx.outline_tokenizeFrom_none _ source, lx.outline_tokenizeFrom_none (a ++ ' ' :: b) source,
    (lx.outline_tokenizeFrom _ none).1, (lx.outline_tokenizeFrom _ none).1, List.append_assoc,
    htexts, htexts', hbehind, hs'.scanAll_of_step hstep, ht'.scanAll_eq ht hclash']

namespace Sample

/-- A line comment between a word and a literal. -/
theorem outline_tokenizeFrom_comment_quoting :
    outline ParseError.text
      (quoting.tokenizeFrom ("x ".toList ++ "// y\n".toList ++ "'x'".toList) none) =
        outline ParseError.text (quoting.tokenizeFrom ("x ".toList ++ ' ' :: "'x'".toList) none) ∧
      (quoting.tokenizeFrom ("x ".toList ++ ' ' :: "'x'".toList) none).toOption.map
        (·.map Token.text) = some ["x", "'x'"] := by
  have hcomment : quoting.StartsComment "'x'".toList "// y\n".toList :=
    @Lexer.StartsComment.line quoting _ ['/', '/'] [' ', 'y'] rfl (by decide) (by decide +kernel)
  have hblank : ∀ c, "x ".toList.getLast? = some c → Text.isBlank c = true := fun c hc =>
    Option.some.inj (show some ' ' = some c from hc) ▸ rfl
  refine ⟨(Lexer.outline_tokenizeFrom_comment none hblank hcomment ?_ ?_ ?_ ?_).1,
    by decide +kernel⟩
  all_goals decide +kernel

/-- Line comments that start with a quote. -/
def quotes : Lexer :=
  (Lexer.ofTypes [⟨1, .keyword "x" true⟩, ⟨2, .keyword "y" true⟩, ⟨3, .literal⟩]).setLineComment "'"

/-- Behind a blank such a comment is taken for a literal, which is never closed. -/
theorem comment_lost_behind_blank :
    ¬∀ (lx : Lexer) (a comment b : List Char), (∀ marker, lx.IsMarker marker → marker ≠ []) →
    (∀ c, a.getLast? = some c → Text.isBlank c = true) → lx.StartsComment b comment →
      lx.LeavesOutside a (comment ++ b) → lx.LeavesOutside a (' ' :: b) →
      outline ParseError.text (lx.tokenizeFrom (a ++ comment ++ b) none) =
        outline ParseError.text (lx.tokenizeFrom (a ++ ' ' :: b) none) := by
  intro hall
  have hmarkers : ∀ marker, quotes.IsMarker marker → marker ≠ [] := by
    intro marker hmarker
    cases hmarker with
    | line h => exact Option.some.inj h ▸ List.cons_ne_nil _ _
    | start h | stop h => exact absurd h nofun
  have hcomment : quotes.StartsComment "y".toList "'c\n".toList :=
    @Lexer.StartsComment.line quotes _ ['\x27'] ['c'] rfl (by decide) (by decide +kernel)
  have hends : ∀ c, "x ".toList.getLast? = some c → Text.isBlank c = true := fun c hc =>
    Option.some.inj (show some ' ' = some c from hc) ▸ rfl
  have hsame := hall quotes "x ".toList "'c\n".toList "y".toList hmarkers hends hcomment
    (by decide +kernel) (by decide +kernel)
  have hlost : (outline ParseError.text
      (quotes.tokenizeFrom ("x ".toList ++ "'c\n".toList ++ "y".toList) none)).toOption.isSome =
        false := by decide +kernel
  have hblank : (outline ParseError.text
      (quotes.tokenizeFrom ("x ".toList ++ ' ' :: "y".toList) none)).toOption.isSome =
        true := by decide +kernel
  rw [hsame, hblank] at hlost
  exact absurd hlost (by decide)

end Sample

end GrammarGraph
