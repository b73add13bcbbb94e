import GrammarGraph.Proofs.Borders

/-!
# How far a stream looks ahead

A stream compares what it sees with the comment markers, and inside a literal it looks for a quote
behind an escape character.  So `Lexer.fillSize` characters say as much to it as all that is left of
the text (`Stream.Sees.step_eq`), and no step depends on how many characters can be seen
(`Stream.resize_step`).  A whole pass over a text yields the same with any larger window, and
without one (`Stream.results_of_fillSize_le`).
-/

namespace GrammarGraph

namespace Stream

variable {lx : Lexer} {s : Stream} {c : Char} {seen rest marker : List Char} {mode : Mode}
  {n fuel : Nat}

/-! ## What is seen says enough -/

/-- What is seen of the rest of a text, if it is enough to recognize the markers and the
escaped quotes of a lexer. -/
structure Sees (lx : Lexer) (seen rest : List Char) : Prop where
  front : seen <+: rest
  enough : rest.take lx.fillSize <+: seen

theorem sees_lookahead (hsize : lx.fillSize ≤ s.window.size) :
    Sees lx s.window.lookahead s.window.rest := by
  refine ⟨List.take_prefix _ _, ?_⟩
  rw [Window.lookahead, ← Nat.min_eq_left hsize, ← List.take_take]
  exact List.take_prefix _ _

namespace Sees

theorem startsWith_eq (h : Sees lx seen rest) (hmarker : lx.IsMarker marker) :
    startsWith seen marker = startsWith rest marker := by
  have hprefix : marker <+: seen ↔ marker <+: rest := by
    refine ⟨fun hseen => hseen.trans h.front, fun hrest => ?_⟩
    exact (List.prefix_take_iff.mpr ⟨hrest, length_le_of_isMarker hmarker⟩).trans h.enough
  rw [startsWith, startsWith, Bool.eq_iff_iff]
  simp only [Bool.and_eq_true, List.isPrefixOf_iff_prefix, hprefix]

theorem getElem?_one (h : Sees lx seen rest) : seen[1]? = rest[1]? := by
  cases hrest : rest[1]? with
  | none =>
    exact List.getElem?_eq_none
        (Nat.le_trans h.front.length_le (List.getElem?_eq_none_iff.mp hrest))
  | some d =>
    have htake : (rest.take lx.fillSize)[1]? = some d := by
      rw [List.getElem?_take_of_lt (two_le_fillSize lx), hrest]
    obtain ⟨more, rfl⟩ := h.enough
    rw [List.getElem?_append_left (List.getElem?_eq_some_iff.mp htake).1, htake]

theorem any_startsWith_eq {α : Type} {o : Option α} {f : α → List Char} (h : Sees lx seen rest)
    (hmarker : ∀ a, o = some a → lx.IsMarker (f a)) :
    o.any (startsWith seen <| f ·) = o.any (startsWith rest <| f ·) := by
  cases o with
  | none => rfl
  | some a => exact h.startsWith_eq (hmarker a rfl)

theorem commentMode?_eq (h : Sees lx seen rest) (s : Stream) :
    s.commentMode? lx seen = s.commentMode? lx rest := by
  have hline : lx.lineComment.any (startsWith seen ·) = lx.lineComment.any (startsWith rest ·) :=
    h.any_startsWith_eq fun _ hline => .line hline
  have hblock :
      lx.blockComment.any (startsWith seen ·.1) = lx.blockComment.any (startsWith rest ·.1) :=
    h.any_startsWith_eq fun _ hblock => .start hblock
  rw [commentMode?, commentMode?, hline, hblock]

theorem nextMode_eq (h : Sees lx seen rest) (s : Stream) :
    s.nextMode lx c seen = s.nextMode lx c rest := by
  have hstop :
      lx.blockComment.any (startsWith seen ·.2) = lx.blockComment.any (startsWith rest ·.2) :=
    h.any_startsWith_eq fun _ hblock => .stop hblock
  rw [nextMode, nextMode, hstop]
  simp only [h.commentMode?_eq]

/-- To a step what is seen says as much as all that is left. -/
theorem step_eq (h : Sees lx seen rest) (s : Stream) : s.step lx c seen = s.step lx c rest := by
  rw [step, step, h.nextMode_eq]
  split
  · rfl
  · rw [consume, consume, h.getElem?_one]

end Sees

/-! ## Looking at all that is left -/

/-- Read a chunk as `readChunk` does, with all that is left of the text in sight. -/
def readChunkAhead (lx : Lexer) : Nat → Stream → Option Chunk × Stream
  | 0, s => s.flush
  | fuel + 1, s =>
    match s.window.rest with
    | [] => s.flush
    | c :: cs =>
      match s.step lx c (c :: cs) with
      | (some chunk, s) => (some chunk, s)
      | (none, s) => s.readChunkAhead lx fuel

/-- What the chunks contribute as in `drain`, with all that is left of the text in sight. -/
def drainAhead (lx : Lexer) : Nat → Stream → List (Except ParseError Token) × Stream
  | 0, s => ([], s)
  | fuel + 1, s =>
    match s.readChunkAhead lx s.window.rest.length with
    | (none, s) => ([], s)
    | (some chunk, s) =>
      let (more, s') := s.drainAhead lx fuel
      (ofChunk lx s.source chunk ++ more, s')

/-- All that is still to come as in `results`, with all that is left of the text in sight. -/
def resultsAhead (lx : Lexer) (s : Stream) : List (Except ParseError Token) × Stream :=
  let (more, s') := { s with pending := [] }.drainAhead lx (s.window.rest.length + 1)
  (s.pending.map .ok ++ more, s')

theorem readChunk_eq_readChunkAhead (hsize : lx.fillSize ≤ s.window.size) (fuel : Nat) :
    s.readChunk lx fuel = s.readChunkAhead lx fuel ∧
      (s.readChunk lx fuel).2.window.size = s.window.size := by
  induction fuel generalizing s with
  | zero => exact ⟨rfl, by rw [readChunk, window_flush]⟩
  | succ fuel ih =>
    have hsees := sees_lookahead hsize
    rw [readChunk, readChunkAhead]
    cases hrest : s.window.rest with
    | nil =>
      rw [Window.lookahead, hrest, List.take_nil]
      exact ⟨rfl, by rw [window_flush]⟩
    | cons c cs =>
      have hpos := lt_of_lt_of_le Nat.zero_lt_two ((two_le_fillSize lx).trans hsize)
      obtain ⟨seen, hseen⟩ := exists_seen hpos hrest
      have hstep := hsees.step_eq (c := c) s
      have hmore :=
        (advances_step (s := s) lx c (c :: cs) (by rw [hrest]; exact List.cons_ne_nil _ _)).size
      rw [hseen, hrest] at hstep
      rw [hseen]
      simp only [hstep]
      rcases hout : s.step lx c (c :: cs) with ⟨_ | chunk, t⟩ <;> rw [hout] at hmore
      · obtain ⟨heq, hsame⟩ := ih (s := t) (by rw [hmore]; exact hsize)
        exact ⟨heq, hsame.trans hmore⟩
      · exact ⟨rfl, hmore⟩

theorem drain_eq_drainAhead (hsize : lx.fillSize ≤ s.window.size) (fuel : Nat) :
    s.drain lx fuel = s.drainAhead lx fuel := by
  induction fuel generalizing s with
  | zero => rfl
  | succ fuel ih =>
    obtain ⟨heq, hsame⟩ := readChunk_eq_readChunkAhead hsize s.window.rest.length
    rw [drain, drainAhead, nextChunk, ← heq]
    rcases hout : s.readChunk lx s.window.rest.length with ⟨_ | chunk, t⟩
    · rfl
    · rw [hout] at hsame
      simp only [ih (s := t) (by rw [hsame]; exact hsize)]

/-- A stream that sees enough yields what it would with all that is left of the text in sight. -/
theorem results_eq_resultsAhead (hsize : lx.fillSize ≤ s.window.size) :
    s.results lx = s.resultsAhead lx := by
  have hdrain :=
    drain_eq_drainAhead (s := { s with pending := [] }) hsize (s.window.rest.length + 1)
  rw [results, resultsAhead, hdrain]

/-! ## Other windows -/

/-- The same stream, with `n` characters in sight. -/
def resize (n : Nat) (s : Stream) : Stream := { s with window := { s.window with size := n } }

theorem resize_collect (n : Nat) (s : Stream) : (s.resize n).collect = s.collect.resize n := by
  obtain ⟨⟨_ | ⟨c, cs⟩, size, tabSize, position⟩, mode, collected, before, openQuote, pending,
      source⟩ := s <;> rfl

theorem resize_flush (n : Nat) (s : Stream) : (s.resize n).flush = s.flush.map id (resize n) := by
  unfold flush
  rw [apply_ite (Prod.map _ _)]
  rfl

theorem resize_nextMode (n : Nat) (s : Stream) :
    (s.resize n).nextMode lx c seen = (s.nextMode lx c seen).map id (resize n) := by
  obtain ⟨window, mode, collected, before, openQuote, pending, source⟩ := s
  unfold nextMode resize
  cases mode <;> simp only
  case normal => split <;> rfl
  case blanks => split <;> [rfl; split <;> rfl]
  case lineComment => rfl
  case blockComment => rfl

theorem resize_enter (n : Nat) (s : Stream) :
    (s.resize n).enter lx mode = (s.enter lx mode).map id (resize n) := by
  unfold enter
  rw [show (s.resize n).mode = s.mode from rfl]
  cases s.mode with
  | normal => exact resize_flush n ({ s with mode }.skip (triggerLength lx mode))
  | blanks =>
    simp only
    split
    · exact congrArg (none, ·) (resize_collect n { s with mode })
    · rfl
  | lineComment | blockComment => rfl

theorem resize_consume (n : Nat) (s : Stream) :
    (s.resize n).consume lx c seen = (s.consume lx c seen).resize n := by
  rw [consume_eq, consume_eq, apply_ite (resize n), apply_ite (resize n), ← resize_collect,
    ← resize_collect,
    ← resize_collect]
  rfl

/-- No step depends on how many characters are in sight, but for those that it is given. -/
theorem resize_step (n : Nat) (s : Stream) :
    (s.resize n).step lx c seen = (s.step lx c seen).map id (resize n) := by
  rw [step, step, resize_nextMode]
  rcases s.nextMode lx c seen with ⟨_ | mode, t⟩
  · exact congrArg (none, ·) (resize_consume n t)
  · exact resize_enter n t

theorem resize_readChunkAhead (n : Nat) (s : Stream) :
    (s.resize n).readChunkAhead lx fuel = (s.readChunkAhead lx fuel).map id (resize n) := by
  induction fuel generalizing s with
  | zero => exact resize_flush n s
  | succ fuel ih =>
    rw [readChunkAhead, readChunkAhead, show (s.resize n).window.rest = s.window.rest from rfl]
    cases s.window.rest with
    | nil => exact resize_flush n s
    | cons c cs =>
      simp only [resize_step]
      rcases s.step lx c (c :: cs) with ⟨_ | chunk, t⟩
      · exact ih t
      · rfl

theorem resize_drainAhead (lx : Lexer) (fuel n : Nat) (s : Stream) :
    (s.resize n).drainAhead lx fuel = (s.drainAhead lx fuel).map id (resize n) := by
  induction fuel generalizing s with
  | zero => rfl
  | succ fuel ih =>
    rw [drainAhead, drainAhead, show (s.resize n).window.rest = s.window.rest from rfl,
      resize_readChunkAhead]
    rcases s.readChunkAhead lx s.window.rest.length with ⟨_ | chunk, t⟩
    · rfl
    · exact congrArg (fun r => (ofChunk lx t.source chunk ++ r.1, r.2)) (ih t)

theorem resize_resultsAhead (n : Nat) (s : Stream) :
    (s.resize n).resultsAhead lx = (s.resultsAhead lx).map id (resize n) := by
  have hdrain := resize_drainAhead lx (s.window.rest.length + 1) n { s with pending := [] }
  unfold resultsAhead
  rw [show (s.resize n).window.rest = s.window.rest from rfl]
  exact congrArg (fun r => (s.pending.map .ok ++ r.1, r.2)) hdrain

/-- As much of a text as `Lexer.fillSize` says is enough to look at: with more of it in sight, or
all that is left, a stream yields the same tokens and errors, and reads as far. -/
theorem results_of_fillSize_le (lx : Lexer) (text : List Char) (source : Option String) {n : Nat}
    (hn : lx.fillSize ≤ n) :
    (results lx { window := .ofText text n lx.tabSize, source }).1 =
      ((lx.stream text source).results lx).1 ∧
    (results lx { window := .ofText text n lx.tabSize, source }).2.position =
      ((lx.stream text source).results lx).2.position ∧
    (lx.stream text source).resultsAhead lx = (lx.stream text source).results lx := by
  have hahead :=
    results_eq_resultsAhead (s := lx.stream text source) (Nat.le_max_left lx.fillSize 1)
  have hlarge : ((lx.stream text source).resize (max n 1)).results lx = _ :=
    results_eq_resultsAhead (Nat.le_trans hn (Nat.le_max_left n 1))
  rw [resize_resultsAhead, ← hahead] at hlarge
  obtain ⟨hresults, hbehind⟩ := Prod.ext_iff.mp hlarge
  exact ⟨hresults, (congrArg position hbehind).trans rfl, hahead.symm⟩

end Stream

namespace Sample

/-- Block comments with markers that are longer than two characters. -/
def markup : Lexer := (Lexer.ofTypes [⟨1, .keyword "x" true⟩]).setBlockComment "<!--" "-->"

/-- The comment is passed over with five characters in sight as with four, and it is not with
three. -/
theorem results_of_fillSize_le_markup : markup.fillSize = 4 ∧
    (Stream.results markup
      { window := .ofText "x<!-- y -->".toList 5 markup.tabSize, source := none }).1 =
      ((markup.stream "x<!-- y -->".toList none).results markup).1 ∧
    ((markup.stream "x<!-- y -->".toList none).results markup).1.map (·.toOption.map Token.text) =
      [some "x"] ∧
    (Stream.results markup
      { window := .ofText "x<!-- y -->".toList 3 markup.tabSize, source := none }).1.map
      (·.toOption.map Token.text) = [none, none, none] :=
  ⟨by decide, (Stream.results_of_fillSize_le markup "x<!-- y -->".toList none (by decide)).1,
    by decide +kernel, by decide +kernel⟩

end Sample

end GrammarGraph
