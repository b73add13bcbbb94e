import GrammarGraph.Proofs.Tokens
import Mathlib.Data.List.Infix

/-!
# Gaps between chunks

What a stream reads without collecting it are blanks and whole comments (`Lexer.IsGap`).
`Stream.At` tells where a stream is in its text: behind what it has handed out as chunks, a gap, and
what it has collected since.  Every step keeps that up (`Stream.At.step`), so the next chunk stands
in the text behind a gap, and `Chunk.before` is the position in front of it (`Stream.At.readChunk`).
-/

namespace GrammarGraph

namespace Lexer

variable {lx : Lexer} {gap gap' body behind : List Char} {c : Char}

/-- A whole comment in front of `behind`: a line comment goes up to its linefeed, a block comment up
to the first end marker in it, and either may go up to the end of the input. -/
inductive IsComment (lx : Lexer) : List Char → List Char → Prop
  | line {marker body behind : List Char} : lx.lineComment = some marker → marker ≠ [] →
      '\n' ∉ body → IsComment lx (marker ++ body ++ ['\n']) behind
  | lastLine {marker body : List Char} : lx.lineComment = some marker → marker ≠ [] → '\n' ∉ body →
      IsComment lx (marker ++ body) []
  | block {start stop body behind : List Char} : lx.blockComment = some (start, stop) → start ≠ [] →
      stop ≠ [] → (∀ a b, body ++ stop = a ++ stop ++ b → b = []) →
      IsComment lx (start ++ body ++ stop) behind
  | lastBlock {start stop body : List Char} : lx.blockComment = some (start, stop) → start ≠ [] →
      (stop ≠ [] → ¬stop <:+: body) → IsComment lx (start ++ body) []

/-- Blanks and whole comments in front of `behind`. -/
inductive IsGap (lx : Lexer) : List Char → List Char → Prop
  | nil {behind : List Char} : IsGap lx [] behind
  | blank {c : Char} {gap behind : List Char} : Text.isBlank c = true → IsGap lx gap behind →
      IsGap lx (c :: gap) behind
  | comment {comment gap behind : List Char} : IsComment lx comment (gap ++ behind) →
      IsGap lx gap behind → IsGap lx (comment ++ gap) behind

namespace IsGap

theorem append (h : IsGap lx gap (gap' ++ behind)) (h' : IsGap lx gap' behind) :
    IsGap lx (gap ++ gap') behind := by
  generalize hrest : gap' ++ behind = rest at h
  induction h with
  | nil => exact h'
  | blank hc _ ih => exact .blank hc (ih hrest)
  | comment hcomment _ ih =>
    subst hrest
    rw [List.append_assoc]
    exact .comment (by rwa [List.append_assoc]) (ih rfl)

theorem snoc (h : IsGap lx gap (c :: behind)) (hc : Text.isBlank c = true) :
    IsGap lx (gap ++ [c]) behind :=
  @append lx gap [c] behind h (.blank hc .nil)

/-- A comment behind a gap. -/
theorem append_comment {comment : List Char} (h : IsGap lx gap (comment ++ behind))
    (hcomment : IsComment lx comment behind) : IsGap lx (gap ++ comment) behind := by
  refine h.append ?_
  have hone : lx.IsGap (comment ++ []) behind := .comment hcomment .nil
  rwa [List.append_nil] at hone

end IsGap

/-- What was read in a mode and not collected, in front of `behind`: a gap, and in a comment also
the part of it that was read. -/
inductive Skipped (lx : Lexer) : Mode → List Char → List Char → Prop
  | normal {gap behind : List Char} : IsGap lx gap behind → Skipped lx .normal gap behind
  | blanks {gap behind : List Char} : IsGap lx gap behind → Skipped lx .blanks gap behind
  | lineComment {gap marker body behind : List Char} : IsGap lx gap (marker ++ body ++ behind) →
      lx.lineComment = some marker → marker ≠ [] → '\n' ∉ body →
      Skipped lx .lineComment (gap ++ (marker ++ body)) behind
  | blockComment {gap start stop body behind : List Char} : IsGap lx gap (start ++ body ++ behind) →
      lx.blockComment = some (start, stop) → start ≠ [] →
      (∀ k < body.length, stop ≠ [] → ¬stop <+: (body ++ behind).drop k) →
      Skipped lx .blockComment (gap ++ (start ++ body)) behind

/-- At the end of the input every comment is whole. -/
theorem Skipped.isGap {mode : Mode} (h : Skipped lx mode gap []) : IsGap lx gap [] := by
  cases h with
  | normal h | blanks h => exact h
  | lineComment h hmarker hne hbody => exact h.append_comment (.lastLine hmarker hne hbody)
  | @blockComment _ _ stop body _ h hmarker hne hfirst =>
    refine h.append_comment (.lastBlock hmarker hne ?_)
    rintro hstop ⟨a, b, rfl⟩
    refine hfirst a.length ?_ hstop ?_
    · rw [List.append_assoc, List.length_append, List.length_append]
      exact Nat.lt_add_of_pos_right (Nat.add_pos_left (List.length_pos_iff.mpr hstop) _)
    · rw [List.append_nil, List.append_assoc, List.drop_left]
      exact List.prefix_append stop b

/-- The linefeed ends a line comment. -/
theorem Skipped.endLine (h : Skipped lx .lineComment gap ('\n' :: behind)) :
    IsGap lx (gap ++ ['\n']) behind := by
  cases h with
  | @lineComment gap marker body _ h hmarker hne hbody =>
    rw [List.append_assoc]
    refine IsGap.append_comment ?_ (.line hmarker hne hbody)
    simpa using h

/-- The end marker ends a block comment. -/
theorem Skipped.endBlock {start stop : List Char}
    (h : Skipped lx .blockComment gap (stop ++ behind))
    (hmarker : lx.blockComment = some (start, stop)) (hstop : stop ≠ []) :
    IsGap lx (gap ++ stop) behind := by
  cases h with
  | @blockComment gap start' stop' body _ h hmarker' hne hfirst =>
    obtain ⟨rfl, rfl⟩ := Prod.mk.inj (Option.some.inj (hmarker'.symm.trans hmarker))
    rw [List.append_assoc]
    refine IsGap.append_comment ?_ (.block hmarker hne hstop ?_)
    · simpa using h
    · intro a b hab
      by_contra hb
      -- An end marker before the last one would have been seen.
      have hlength := congrArg List.length hab
      simp only [List.length_append] at hlength
      have hb' := List.length_pos_iff.mpr hb
      refine hfirst a.length (by omega) hstop ?_
      rw [← List.append_assoc, hab, List.append_assoc, List.append_assoc, List.drop_left]
      exact List.prefix_append _ _

end Lexer

namespace Stream

variable {lx : Lexer} {s s' : Stream} {text passed gap marker : List Char} {source : Option String}
  {c : Char} {cs : List Char} {mode : Mode}

/-- A marker that is seen stands in front of the rest of the input. -/
theorem prefix_of_startsWith (h : startsWith s.window.lookahead marker = true) :
    marker ≠ [] ∧ marker <+: s.window.rest := by
  rw [startsWith, Bool.and_eq_true, Bool.not_eq_true', List.isPrefixOf_iff_prefix] at h
  refine ⟨?_, h.2.trans (List.take_prefix _ _)⟩
  rintro rfl
  exact absurd h.1 (by simp)

/-- A marker for which there is room to be seen is seen where it stands. -/
theorem startsWith_of_prefix (hne : marker ≠ []) (hsize : marker.length ≤ s.window.size)
    (h : marker <+: s.window.rest) : startsWith s.window.lookahead marker = true := by
  rw [startsWith, Bool.and_eq_true, Bool.not_eq_true', List.isPrefixOf_iff_prefix]
  refine ⟨List.isEmpty_eq_false_iff.mpr hne, ?_⟩
  obtain ⟨behind, hrest⟩ := h
  rw [Window.lookahead, ← hrest, List.take_append, List.take_of_length_le hsize]
  exact List.prefix_append _ _

/-- Where a stream is in its text: behind what it has handed out, the gap, and what it has
collected. -/
structure At (lx : Lexer) (text : List Char) (source : Option String) (passed gap : List Char)
    (s : Stream) : Prop where
  text_eq : text = passed ++ gap ++ s.collected.reverse ++ s.window.rest
  position : s.window.position =
    .advanceOver (max lx.tabSize 1) .beforeText (passed ++ gap ++ s.collected.reverse)
  tabSize : s.window.tabSize = max lx.tabSize 1
  size : lx.fillSize ≤ s.window.size
  skipped : lx.Skipped s.mode gap (s.collected.reverse ++ s.window.rest)
  chunkBefore : s.collected ≠ [] →
    s.chunkBefore = .advanceOver (max lx.tabSize 1) .beforeText (passed ++ gap)
  mode : s.collected ≠ [] → s.mode = .normal
  source_eq : s.source = source

theorem at_stream (lx : Lexer) (text : List Char) (source : Option String) :
    At lx text source [] [] (lx.stream text source) where
  text_eq := rfl
  position := rfl
  tabSize := rfl
  size := Nat.le_max_left _ _
  skipped := .normal .nil
  chunkBefore h := absurd rfl h
  mode h := absurd rfl h
  source_eq := rfl

namespace At

/-- Where the stream is does not depend on the open literal. -/
theorem setQuote (h : At lx text source passed gap s) (quote : Option Char) :
    At lx text source passed gap { s with openQuote := quote } :=
  ⟨h.text_eq, h.position, h.tabSize, h.size, h.skipped, h.chunkBefore, h.mode, h.source_eq⟩

/-- Behind a gap the stream can go on in the normal mode. -/
theorem toNormal (h : At lx text source passed gap s)
    (hgap : lx.IsGap gap (s.collected.reverse ++ s.window.rest)) :
    At lx text source passed gap { s with mode := .normal } :=
  ⟨h.text_eq, h.position, h.tabSize, h.size, .normal hgap, h.chunkBefore, fun _ => rfl, h.source_eq⟩

/-- With nothing collected, what is skipped is added to the gap. -/
theorem skip {n : Nat} (h : At lx text source passed gap s) (hnil : s.collected = [])
    (hskipped : lx.Skipped mode (gap ++ s.window.rest.take n) (s.window.rest.drop n)) :
    At lx text source passed (gap ++ s.window.rest.take n) (Stream.skip { s with mode } n) where
  text_eq := by
    have htext := h.text_eq
    rw [hnil, List.reverse_nil, List.append_nil] at htext
    show text =
        passed ++ (gap ++ s.window.rest.take n) ++ s.collected.reverse ++ s.window.rest.drop n
    rw [hnil, List.reverse_nil, List.append_nil, List.append_assoc, List.append_assoc,
      List.take_append_drop, htext, List.append_assoc]
  position := by
    have hposition := h.position
    rw [hnil, List.reverse_nil, List.append_nil] at hposition
    show (s.window.skip n).position =
        .advanceOver _ _ (passed ++ (gap ++ s.window.rest.take n) ++ s.collected.reverse)
    rw [hnil, List.reverse_nil, List.append_nil, Window.position_skip, hposition, h.tabSize,
      ← List.append_assoc, Position.advanceOver_append _ _ (passed ++ gap)]
  tabSize := h.tabSize
  size := h.size
  skipped := by
    show lx.Skipped mode _ (s.collected.reverse ++ s.window.rest.drop n)
    rw [hnil]
    exact hskipped
  chunkBefore hne := absurd hnil hne
  mode hne := absurd hnil hne
  source_eq := h.source_eq

theorem skipOn {n : Nat} (h : At lx text source passed gap s) (hnil : s.collected = [])
    (hskipped : lx.Skipped s.mode (gap ++ s.window.rest.take n) (s.window.rest.drop n)) :
    At lx text source passed (gap ++ s.window.rest.take n) (s.skip n) := h.skip hnil hskipped

theorem collect (h : At lx text source passed gap s) (hmode : s.mode = .normal) :
    At lx text source passed gap s.collect := by
  by_cases hnil : s.window.rest = []
  · rwa [collect_of_nil hnil]
  obtain ⟨c, cs, hrest⟩ := List.exists_cons_of_ne_nil hnil
  have htext := h.text_eq
  have hskipped := h.skipped
  simp only [Stream.collect, Window.next?, hrest] at htext hskipped ⊢
  refine ⟨?_, ?_, h.tabSize, h.size, ?_, ?_, fun _ => hmode, h.source_eq⟩
  · rw [htext, List.reverse_cons]
    simp
  · rw [h.position, h.tabSize, List.reverse_cons, ← List.append_assoc,
      Position.advanceOver_append _ _ _ [c]]
    rfl
  · rw [List.reverse_cons, List.append_assoc]
    exact hskipped
  · intro _
    show (if s.collected.isEmpty then s.window.position else s.chunkBefore) = _
    split
    · next hempty =>
      rw [h.position, List.isEmpty_iff.mp hempty, List.reverse_nil, List.append_nil]
    · next hempty => exact h.chunkBefore fun hc => hempty (by rw [hc]; rfl)

/-- What the stream has collected is handed out as a chunk. -/
theorem handOut (h : At lx text source passed gap s) (hgap : lx.IsGap [] s.window.rest) :
    At lx text source
      (passed ++ gap ++ s.collected.reverse) [] { s with collected := [], mode := .normal } where
  text_eq := by
    rw [h.text_eq]
    simp
  position := by
    rw [List.append_nil]
    show s.window.position = _
    rw [h.position]
    simp
  tabSize := h.tabSize
  size := h.size
  skipped := .normal hgap
  chunkBefore hne := absurd rfl hne
  mode _ := rfl
  source_eq := h.source_eq

end At

/-- What a step comes to: the stream reads on in its text, or hands out a chunk that
stands there behind a gap. -/
inductive Gives (lx : Lexer) (text : List Char) (source : Option String) (passed : List Char) :
    Option Chunk × Stream → Prop
  | more {gap : List Char} {s : Stream} : At lx text source passed gap s →
      Gives lx text source passed (none, s)
  | chunk {gap gap' : List Char} {chunk : Chunk} {s : Stream} :
      lx.IsGap gap (chunk.text ++ (gap' ++ s.window.rest)) → chunk.text ≠ [] →
      chunk.before = .advanceOver (max lx.tabSize 1) .beforeText (passed ++ gap) →
      At lx text source (passed ++ gap ++ chunk.text) gap' s → s.collected = [] →
      Gives lx text source passed (some chunk, s)

theorem isGap_of_normal {behind : List Char} (h : lx.Skipped mode gap behind)
    (hmode : mode = .normal ∨ mode = .blanks) : lx.IsGap gap behind := by
  cases h with
  | normal h | blanks h => exact h
  | lineComment | blockComment => simp at hmode

/-- Behind a gap a comment is entered with its marker. -/
theorem skipped_of_commentMode? (h : s.commentMode? lx s.window.lookahead = some mode)
    (hgap : lx.IsGap gap s.window.rest) :
    lx.Skipped mode (gap ++ s.window.rest.take (triggerLength lx mode))
      (s.window.rest.drop (triggerLength lx mode)) ∧ mode ≠ .normal := by
  obtain ⟨marker, hseen, hlength, hmode⟩ := seen_of_commentMode? h
  obtain ⟨hne, behind, hrest⟩ := prefix_of_startsWith hseen
  rw [← hrest] at hgap
  rw [hlength, ← hrest, List.take_left, List.drop_left, ← List.append_nil marker]
  rcases hmode with ⟨rfl, hmarker⟩ | ⟨rfl, stop, hmarker⟩
  · exact ⟨.lineComment (by rwa [List.append_nil]) hmarker hne List.not_mem_nil, by simp⟩
  · exact ⟨.blockComment (by rwa [List.append_nil]) hmarker hne (by simp), by simp⟩

namespace At

theorem collected_eq_nil (h : At lx text source passed gap s) (hmode : s.mode ≠ .normal) :
    s.collected = [] := by
  by_contra hne
  exact hmode (h.mode hne)

/-- Leaving the normal mode hands out what was collected. -/
theorem leave (h : At lx text source passed gap s) (hmode : s.mode = .normal)
    (hskipped : ∀ gap, lx.IsGap gap s.window.rest →
      lx.Skipped mode (gap ++
      s.window.rest.take (triggerLength lx mode)) (s.window.rest.drop (triggerLength lx mode))) :
    Gives lx text source passed (s.enter lx mode) := by
  have hgap := isGap_of_normal h.skipped (.inl hmode)
  simp only [enter, hmode, flush]
  by_cases hnil : s.collected = []
  · have hempty :
        (Stream.skip { s with mode } (triggerLength lx mode)).collected.isEmpty = true := by
      rw [List.isEmpty_iff]
      exact hnil
    rw [if_pos hempty]
    rw [hnil] at hgap
    exact .more (h.skip hnil (hskipped gap hgap))
  · have hempty :
        ¬(Stream.skip { s with mode } (triggerLength lx mode)).collected.isEmpty = true := by
      rw [List.isEmpty_iff]
      exact hnil
    rw [if_neg hempty]
    have hafter := (h.handOut .nil).skip rfl (hskipped [] .nil)
    refine .chunk ?_ (List.reverse_ne_nil_iff.mpr hnil) (h.chunkBefore hnil) hafter rfl
    show lx.IsGap gap (s.collected.reverse ++ (s.window.rest.take _ ++ s.window.rest.drop _))
    rwa [List.take_append_drop]

theorem step_normal (h : At lx text source passed gap s) (hmode : s.mode = .normal)
    (hrest : s.window.rest = c :: cs) :
    Gives lx text source passed (s.step lx c s.window.lookahead) := by
  unfold step nextMode
  rw [hmode]
  simp only
  split
  · next hnext =>
    split at hnext
    · next hblank =>
      obtain ⟨hm, rfl⟩ := Prod.mk.inj hnext
      obtain rfl := Option.some.inj hm
      refine h.leave hmode fun gap hgap => ?_
      rw [hrest] at hgap ⊢
      exact .blanks (hgap.snoc (Bool.and_eq_true_iff.mp hblank).2)
    · obtain ⟨hm, rfl⟩ := Prod.mk.inj hnext
      exact h.leave hmode fun gap hgap => (skipped_of_commentMode? hm hgap).1
  · next hnext =>
    obtain rfl : s = _ := by
      split at hnext
      · exact absurd (Prod.mk.inj hnext).1 nofun
      · exact (Prod.mk.inj hnext).2
    refine Gives.more (?_ : At lx text source passed gap _)
    unfold consume
    rw [if_neg (not_not.mpr hmode)]
    split
    · exact h.collect hmode
    · split
      · exact (h.setQuote _).collect hmode
      · split
        · refine (h.collect hmode).collect ?_
          unfold Stream.collect
          split <;> exact hmode
        · exact (h.setQuote _).collect hmode

/-- Where blanks end, the next character is collected, or a comment begins. -/
theorem leaveBlanks (h : At lx text source passed gap s) (hmode : s.mode = .blanks)
    (hm : (s.commentMode? lx s.window.lookahead).or (some .normal) = some mode) :
    Gives lx text source passed (s.enter lx mode) := by
  have hnil := h.collected_eq_nil (by rw [hmode]; nofun)
  have hgap := isGap_of_normal h.skipped (.inr hmode)
  simp only [enter, hmode]
  cases hcomment : s.commentMode? lx s.window.lookahead with
  | none =>
    rw [hcomment, Option.none_or] at hm
    obtain rfl := Option.some.inj hm
    exact .more ((h.toNormal hgap).collect rfl)
  | some mode' =>
    rw [hcomment, Option.some_or] at hm
    obtain rfl := Option.some.inj hm
    rw [hnil] at hgap
    obtain ⟨hskipped, hne⟩ := skipped_of_commentMode? hcomment hgap
    rw [if_neg hne]
    exact .more (h.skip hnil hskipped)

theorem step_blanks (h : At lx text source passed gap s) (hmode : s.mode = .blanks)
    (hrest : s.window.rest = c :: cs) :
    Gives lx text source passed (s.step lx c s.window.lookahead) := by
  have hnil := h.collected_eq_nil (by rw [hmode]; nofun)
  unfold step nextMode
  rw [hmode]
  simp only
  by_cases hquote : (lx.literal.isSome && isQuote c) = true
  · rw [if_pos hquote, ← hmode]
    obtain ⟨mode, hm⟩ : ∃ mode, (commentMode? lx { s with openQuote := toggleQuote c s.openQuote }
        s.window.lookahead).or (some .normal) = some mode := by
      cases commentMode? lx { s with openQuote := toggleQuote c s.openQuote } s.window.lookahead <;>
        exact ⟨_, rfl⟩
    rw [hm]
    exact (h.setQuote (toggleQuote c s.openQuote)).leaveBlanks hmode hm
  · rw [if_neg hquote]
    split
    · next hnext =>
      split at hnext
      · exact absurd (Prod.mk.inj hnext).1 nofun
      · obtain ⟨hm, rfl⟩ := Prod.mk.inj hnext
        exact h.leaveBlanks hmode hm
    · next hnext =>
      split at hnext
      · next hblank =>
        obtain ⟨-, rfl⟩ := Prod.mk.inj hnext
        have hgap := isGap_of_normal h.skipped (.inr hmode)
        apply Gives.more
        rw [consume, if_pos (by rw [hmode]; nofun)]
        refine h.skipOn hnil ?_
        rw [hmode, hrest]
        rw [hnil, hrest] at hgap
        exact .blanks (hgap.snoc (Bool.and_eq_true_iff.mp hblank).1)
      · have hm := (Prod.mk.inj hnext).1
        cases hcomment : s.commentMode? lx s.window.lookahead <;> rw [hcomment] at hm <;>
          exact absurd hm nofun

theorem step_lineComment (h : At lx text source passed gap s) (hmode : s.mode = .lineComment)
    (hrest : s.window.rest = c :: cs) :
    Gives lx text source passed (s.step lx c s.window.lookahead) := by
  have hnil := h.collected_eq_nil (by rw [hmode]; nofun)
  have hskipped := h.skipped
  rw [hnil, hmode, List.reverse_nil, List.nil_append, hrest] at hskipped
  simp only [step, nextMode, hmode]
  by_cases hc : c = '\n'
  · subst hc
    simp only [if_true, enter, hmode]
    apply Gives.more
    refine h.skip hnil ?_
    rw [hrest]
    exact .normal hskipped.endLine
  · simp only [if_neg hc]
    apply Gives.more
    rw [consume, if_pos (by rw [hmode]; nofun)]
    refine h.skipOn hnil ?_
    rw [hmode, hrest]
    cases hskipped with
    | @lineComment gap marker body _ hgap hmarker hne hbody =>
      show lx.Skipped .lineComment (gap ++ (marker ++ body) ++ [c]) cs
      rw [List.append_assoc, List.append_assoc]
      refine .lineComment ?_ hmarker hne ?_
      · simpa using hgap
      · rw [List.mem_append, List.mem_singleton, not_or]
        exact ⟨hbody, fun h => hc h.symm⟩

theorem step_blockComment (h : At lx text source passed gap s) (hmode : s.mode = .blockComment)
    (hrest : s.window.rest = c :: cs) :
    Gives lx text source passed (s.step lx c s.window.lookahead) := by
  have hnil := h.collected_eq_nil (by rw [hmode]; simp)
  have hskipped := h.skipped
  rw [hnil, hmode, List.reverse_nil, List.nil_append] at hskipped
  simp only [step, nextMode, hmode]
  by_cases hstop : (lx.blockComment.any fun marker => startsWith s.window.lookahead marker.2) = true
  · obtain ⟨⟨start, stop⟩, hmarker, hseen⟩ := (Option.any_eq_true _ _).mp hstop
    obtain ⟨hne, behind, hbehind⟩ := prefix_of_startsWith hseen
    simp only [hstop, if_true, enter, hmode]
    apply Gives.more
    refine h.skip hnil ?_
    have hlength : (lx.blockComment.map fun marker => marker.2.length).getD 0 = stop.length := by
      rw [hmarker]; rfl
    rw [← hbehind] at hskipped
    rw [hlength, ← hbehind, List.take_left, List.drop_left]
    exact .normal (hskipped.endBlock hmarker hne)
  · simp only [hstop]
    apply Gives.more
    rw [consume, if_pos (by rw [hmode]; simp)]
    refine h.skipOn hnil ?_
    rw [hmode]
    rw [hrest] at hskipped ⊢
    cases hskipped with
    | @blockComment gap start stop body _ hgap hmarker hne hfirst =>
      show lx.Skipped .blockComment (gap ++ (start ++ body) ++ [c]) cs
      rw [List.append_assoc, List.append_assoc]
      refine .blockComment ?_ hmarker hne ?_
      · simpa using hgap
      · intro k hk hne'
        rw [List.append_assoc, List.singleton_append]
        rcases Nat.lt_or_ge k body.length with hk' | hk'
        · exact hfirst k hk' hne'
        · obtain rfl : k = body.length := by
            rw [List.length_append, List.length_singleton] at hk
            exact le_antisymm (Nat.le_of_lt_succ hk) hk'
          rw [List.drop_left, ← hrest]
          intro hprefix
          have hsize : stop.length ≤ s.window.size := by
            refine le_trans ?_ h.size
            rw [Lexer.fillSize, hmarker]
            exact le_max_right _ _
          refine hstop ((Option.any_eq_true _ _).mpr ⟨(start, stop), hmarker, ?_⟩)
          exact startsWith_of_prefix hne' hsize hprefix

/-- Every step reads on, and may hand out a chunk. -/
theorem step (h : At lx text source passed gap s) (hseen : s.window.lookahead = c :: cs) :
    Gives lx text source passed (s.step lx c (c :: cs)) := by
  obtain ⟨cs', hrest⟩ : ∃ cs', s.window.rest = c :: cs' := by
    obtain ⟨behind, hrest⟩ := List.take_prefix s.window.size s.window.rest
    rw [Window.lookahead] at hseen
    rw [hseen] at hrest
    exact ⟨_, hrest.symm⟩
  rw [← hseen]
  cases hmode : s.mode with
  | normal => exact h.step_normal hmode hrest
  | blanks => exact h.step_blanks hmode hrest
  | lineComment => exact h.step_lineComment hmode hrest
  | blockComment => exact h.step_blockComment hmode hrest

/-- What was collected is handed out as the last chunk. -/
theorem flush (h : At lx text source passed gap s) :
    Gives lx text source passed s.flush ∧ (s.flush.1 = none → s.collected = []) := by
  unfold Stream.flush
  by_cases hnil : s.collected = []
  · rw [if_pos (List.isEmpty_iff.mpr hnil)]
    exact ⟨.more h, fun _ => hnil⟩
  · rw [if_neg (by rwa [List.isEmpty_iff])]
    have hmode := h.mode hnil
    have hafter := h.handOut .nil
    rw [← hmode] at hafter
    refine ⟨.chunk ?_ (List.reverse_ne_nil_iff.mpr hnil) (h.chunkBefore hnil) hafter rfl, nofun⟩
    have hgap := isGap_of_normal h.skipped (.inl hmode)
    simpa using hgap

end At

/-- Reading on until there is a chunk, or nothing left to read. -/
theorem At.readChunk {fuel : Nat} (h : At lx text source passed gap s)
    (hfuel : s.window.rest.length ≤ fuel) : Gives lx text source passed (s.readChunk lx fuel) ∧
      ((s.readChunk lx fuel).1 = none → (s.readChunk lx fuel).2.collected = []) := by
  induction fuel generalizing gap s with
  | zero =>
    obtain ⟨hgives, hnone⟩ := h.flush
    refine ⟨hgives, fun hflush => ?_⟩
    have hcollected := hnone hflush
    rw [Stream.readChunk, Stream.flush, hcollected]
    exact hcollected
  | succ fuel ih =>
    unfold Stream.readChunk
    split
    · obtain ⟨hgives, hnone⟩ := h.flush
      refine ⟨hgives, fun hflush => ?_⟩
      have hcollected := hnone hflush
      rw [Stream.flush, hcollected]
      exact hcollected
    · next c cs hseen =>
      have hgives := h.step hseen
      have hrest : s.window.rest ≠ [] := rest_ne_nil (by rw [hseen]; exact List.cons_ne_nil _ _)
      have hlt := (advances_step lx c (c :: cs) hrest).lt
      split
      · next chunk t hstep =>
        rw [hstep] at hgives
        exact ⟨hgives, by simp⟩
      · next t hstep =>
        rw [hstep] at hgives hlt
        cases hgives with
        | more hat => exact ih hat (Nat.le_of_lt_succ (lt_of_lt_of_le hlt hfuel))

/-- The next chunk stands in the text behind a gap, and where there is none the input ends with a
gap. -/
theorem At.nextChunk (h : At lx text source passed gap s) :
    Gives lx text source passed (s.nextChunk lx) ∧
    ((s.nextChunk lx).1 = none → (s.nextChunk lx).2.collected = []) := h.readChunk (le_refl _)

/-! ## One token at a time -/

/-- Between two chunks nothing is collected. -/
def Between (lx : Lexer) (text : List Char) (source : Option String) (s : Stream) : Prop :=
  s.collected = [] ∧ ∃ passed gap, At lx text source passed gap s

theorem between_stream (lx : Lexer) (text : List Char) (source : Option String) :
    Between lx text source (lx.stream text source) :=
  ⟨rfl, [], [], at_stream lx text source⟩

theorem At.setPending (h : At lx text source passed gap s) (tokens : List Token) :
    At lx text source passed gap { s with pending := tokens } :=
  ⟨h.text_eq, h.position, h.tabSize, h.size, h.skipped, h.chunkBefore, h.mode, h.source_eq⟩

theorem Between.nextChunk (h : Between lx text source s) :
    Between lx text source (s.nextChunk lx).2 := by
  obtain ⟨-, passed, gap, hat⟩ := h
  obtain ⟨hgives, hnone⟩ := hat.nextChunk
  generalize s.nextChunk lx = result at hgives hnone
  cases hgives with
  | more ht => exact ⟨hnone rfl, _, _, ht⟩
  | chunk _ _ _ ht hcollected => exact ⟨hcollected, _, _, ht⟩

theorem Between.next {o : Except ParseError (Option Token)} (h : Between lx text source s)
    (hnext : s.next lx = (o, s')) : Between lx text source s' := by
  have hchunk := h.nextChunk
  obtain ⟨hnil, passed, gap, hat⟩ := h
  unfold Stream.next at hnext
  split at hnext
  · obtain ⟨-, rfl⟩ := Prod.mk.inj hnext
    exact ⟨hnil, passed, gap, hat.setPending _⟩
  · split at hnext
    · next heq =>
      rw [heq] at hchunk
      obtain ⟨-, rfl⟩ := Prod.mk.inj hnext
      exact hchunk
    · next heq =>
      rw [heq] at hchunk
      obtain ⟨hnil', passed', gap', hat'⟩ := hchunk
      split at hnext <;> obtain ⟨-, rfl⟩ := Prod.mk.inj hnext
      · exact ⟨hnil', passed', gap', hat'⟩
      · exact ⟨hnil', passed', gap', hat'⟩
      · exact ⟨hnil', passed', gap', hat'.setPending _⟩

theorem Pulls.between {tokens : List Token} (h : Pulls lx s tokens s')
    (hs : Between lx text source s) : Between lx text source s' := by
  induction h with
  | refl => exact hs
  | token _ hnext ih | stop _ hnext ih => exact ih.next hnext

/-- With nothing left to read a stream is at the last character of its text. -/
theorem Between.position_eq (h : Between lx text source s) (hrest : s.window.rest = []) :
    s.position = .advanceOver (max lx.tabSize 1) .beforeText text := by
  obtain ⟨hnil, passed, gap, hat⟩ := h
  rw [position, hat.position, hat.text_eq, hrest, List.append_nil]

theorem Between.source_eq (h : Between lx text source s) : s.source = source := by
  obtain ⟨-, passed, gap, hat⟩ := h
  exact hat.source_eq

end Stream

end GrammarGraph
