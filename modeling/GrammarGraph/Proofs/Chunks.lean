import GrammarGraph.Lexer.Stream

/-!
# Chunks

Reading a chunk makes progress, and every chunk contributes a token or an error.

* `Stream.readsChunk_nextChunk`: behind a chunk there is less to read, and without one nothing is
  left.
* `Lexer.classify_ne_nil`: a chunk is never classified as no token at all.
-/

namespace GrammarGraph

/-! ## Classifying a chunk -/

theorem TokenKind.marker_ne_nil {kind : TokenKind} {text : List Char} {cut : Cut}
    (h : kind.cut? text = some cut) : cut.marker ≠ [] := by
  obtain ⟨p, -, h⟩ := Option.bind_eq_some_iff.mp h
  obtain ⟨m, -, h⟩ := Option.bind_eq_some_iff.mp h
  have hmarker := (Option.filter_eq_some_iff.mp h).2
  intro hnil
  rw [hnil] at hmarker
  exact absurd hmarker (by simp)

namespace Span

variable {sep : TokenType} {spans : List Span}

theorem text_ne_nil_of_mem_ofText {text : List Char} {s : Span} (h : s ∈ ofText text) :
    s.text ≠ [] := by
  cases text with
  | nil => exact absurd h List.not_mem_nil
  | cons c cs =>
    obtain rfl := List.mem_singleton.mp h
    exact List.cons_ne_nil c cs

theorem text_ne_nil_of_mem_splitText : ∀ {fuel : Nat} {text : List Char} {s : Span},
    s ∈ splitText sep fuel text → s.text ≠ []
  | 0, _, _, h => text_ne_nil_of_mem_ofText h
  | _ + 1, [], _, h => absurd h List.not_mem_nil
  | fuel + 1, c :: cs, s, h => by
    rw [splitText] at h
    split at h
    · obtain rfl := List.mem_singleton.mp h
      exact List.cons_ne_nil c cs
    · next cut hcut =>
      rcases List.mem_append.mp h with h | h
      · exact text_ne_nil_of_mem_splitText h
      · rcases List.mem_cons.mp h with rfl | h
        · exact TokenKind.marker_ne_nil hcut
        · exact text_ne_nil_of_mem_splitText h

theorem splitText_ne_nil {text : List Char} (h : text ≠ []) (fuel : Nat) :
    splitText sep fuel text ≠ [] := by
  obtain ⟨c, cs, rfl⟩ := List.exists_cons_of_ne_nil h
  cases fuel with
  | zero => exact List.cons_ne_nil _ _
  | succ fuel =>
    rw [splitText]
    split
    · exact List.cons_ne_nil _ _
    · exact List.append_ne_nil_of_right_ne_nil _ (List.cons_ne_nil _ _)

/-- Spans that stand for some text: there are some, and none is empty. -/
structure Filled (spans : List Span) : Prop where
  ne_nil : spans ≠ []
  text_ne_nil : ∀ s ∈ spans, s.text ≠ []

theorem filled_ofText {text : List Char} (h : text ≠ []) : Filled (ofText text) := by
  obtain ⟨c, cs, rfl⟩ := List.exists_cons_of_ne_nil h
  exact ⟨List.cons_ne_nil _ _, fun s hs => text_ne_nil_of_mem_ofText hs⟩

theorem Filled.splitAll (h : Filled spans) (sep : TokenType) : Filled (splitAll sep spans) := by
  obtain ⟨s, rest, rfl⟩ := List.exists_cons_of_ne_nil h.ne_nil
  constructor
  · rw [Span.splitAll, List.flatMap_cons]
    apply List.append_ne_nil_of_left_ne_nil
    split
    · exact List.cons_ne_nil _ _
    · exact splitText_ne_nil (h.text_ne_nil s List.mem_cons_self) _
  · intro t ht
    obtain ⟨u, hu, ht⟩ := List.mem_flatMap.mp ht
    split at ht
    · obtain rfl := List.mem_singleton.mp ht
      exact h.text_ne_nil t hu
    · exact text_ne_nil_of_mem_splitText ht

theorem demote_ne_nil (left : List Char) (h : spans ≠ []) : demote left spans ≠ [] := by
  match spans, h with
  | [_], _ => exact List.cons_ne_nil _ _
  | _ :: _ :: _, _ => exact List.cons_ne_nil _ _

theorem merge_ne_nil (h : spans ≠ []) : merge spans ≠ [] := by
  obtain ⟨s, rest, rfl⟩ := List.exists_cons_of_ne_nil h
  rw [merge]
  split
  · exact List.cons_ne_nil _ _
  · split <;> exact List.cons_ne_nil _ _

end Span

namespace Splitter

variable {sp : Splitter} {text : List Char}

/-- The spans that the separators leave, before the quotes count. -/
def cutUp (sp : Splitter) (text : List Char) : List Span :=
  sp.separators.foldl (fun spans sep => Span.splitAll sep spans) (Span.ofText text)

theorem split_eq (sp : Splitter) (text : List Char) :
    sp.split text =
      Span.merge (if sp.literalAware then Span.demote [] (sp.cutUp text) else sp.cutUp text) := rfl

/-- What holds of a text as its only span, and goes on to hold with each
separator, holds of all spans. -/
theorem cutUp_induct {P : List Span → Prop} (hstart : P (Span.ofText text))
    (hsep : ∀ sep ∈ sp.separators, ∀ spans, P spans → P (Span.splitAll sep spans)) :
    P (sp.cutUp text) := by
  have hfold : ∀ (separators : List TokenType) (spans : List Span),
      (∀ sep ∈ separators, ∀ spans, P spans → P (Span.splitAll sep spans)) → P spans →
      P (separators.foldl (fun spans sep => Span.splitAll sep spans) spans) := by
    intro separators
    induction separators with
    | nil => exact fun _ _ h => h
    | cons sep separators ih =>
      exact fun spans hsep h => ih _ (fun sep hmem => hsep sep (List.mem_cons_of_mem _ hmem))
        (hsep sep List.mem_cons_self _ h)
  exact hfold _ _ hsep hstart

theorem filled_cutUp (sp : Splitter) (h : text ≠ []) : Span.Filled (sp.cutUp text) :=
  cutUp_induct (Span.filled_ofText h) fun sep _ _ hspans => hspans.splitAll sep

theorem split_ne_nil (sp : Splitter) (h : text ≠ []) : sp.split text ≠ [] := by
  rw [split_eq]
  apply Span.merge_ne_nil
  split
  · exact Span.demote_ne_nil [] (sp.filled_cutUp h).ne_nil
  · exact (sp.filled_cutUp h).ne_nil

end Splitter

namespace Lexer

variable {lx : Lexer} {within : List Char → Position → Except UnknownSpan (List Token)}

theorem map_ne_ok_nil {α β ε : Type} {f : List α → List β} (hf : ∀ l, f l ≠ [])
    (r : Except ε (List α)) : r.map f ≠ .ok [] := by
  cases r with
  | error e => exact nofun
  | ok l => exact fun h => hf l (Except.ok.inj h)

theorem classifySpan_ne_nil (text : List Char) (before : Position) :
    lx.classifySpan within text before ≠ .ok [] := by
  unfold classifySpan
  split
  · exact fun h => List.cons_ne_nil _ _ (Except.ok.inj h)
  · split
    · exact map_ne_ok_nil (fun l => List.cons_ne_nil _ _) _
    · split
      · exact map_ne_ok_nil (fun l => List.append_ne_nil_of_right_ne_nil _ (List.cons_ne_nil _ _)) _
      · split
        · exact nofun
        · exact fun h => List.cons_ne_nil _ _ (Except.ok.inj h)

theorem classifySpans_ne_nil {spans : List Span} (h : spans ≠ []) (before : Position) :
    lx.classifySpans within spans before ≠ .ok [] := by
  obtain ⟨s, rest, rfl⟩ := List.exists_cons_of_ne_nil h
  rw [classifySpans]
  intro hnil
  have key : ∀ (first more : Except UnknownSpan (List Token)), first ≠ .ok [] →
      (do let tokens ← first; let more ← more; return tokens ++ more) ≠ Except.ok [] := by
    intro first more hfirst
    cases first with
    | error e => exact nofun
    | ok tokens =>
      cases more with
      | error e => exact nofun
      | ok more =>
        intro h
        have happend : tokens ++ more = [] := Except.ok.inj h
        exact hfirst (by rw [(List.append_eq_nil_iff.mp happend).1])
  cases hs : s.separator with
  | some sep =>
    rw [hs] at hnil
    exact key _ _ (fun h => List.cons_ne_nil _ _ (Except.ok.inj h)) hnil
  | none =>
    rw [hs] at hnil
    exact key _ _ (classifySpan_ne_nil _ _) hnil

/-- A chunk has a token, unless it is spoilt. -/
theorem classify_ne_nil {chunk : List Char} (h : chunk ≠ []) (before : Position) :
    lx.classify chunk before ≠ .ok [] := by
  rw [classify, classifyText]
  exact classifySpans_ne_nil (lx.splitter.split_ne_nil h) before

end Lexer

/-! ## Reading a chunk -/

theorem not_isBlank_of_isQuote {c : Char} (h : isQuote c = true) : Text.isBlank c = false := by
  rcases Bool.or_eq_true_iff.mp h with h | h <;> rw [eq_of_beq h] <;> decide

namespace Stream

variable {lx : Lexer} {s s' t : Stream} {c : Char} {seen : List Char} {mode : Mode} {chunk : Chunk}

/-- Something was read. As much as before can be seen, and the same tokens are waiting. -/
structure Advances (s s' : Stream) : Prop where
  lt : s'.window.rest.length < s.window.rest.length
  size : s'.window.size = s.window.size
  pending : s'.pending = s.pending

theorem advances_skip {n : Nat} (hn : 0 < n) (hs : s.window.rest ≠ []) : Advances s (s.skip n) := by
  refine ⟨?_, rfl, rfl⟩
  rw [skip, Window.rest_skip, List.length_drop]
  exact Nat.sub_lt (List.length_pos_iff.mpr hs) hn

theorem advances_collect (hs : s.window.rest ≠ []) : Advances s s.collect := by
  obtain ⟨c, cs, hrest⟩ := List.exists_cons_of_ne_nil hs
  simp only [collect, Window.next?, hrest]
  refine ⟨?_, rfl, rfl⟩
  rw [hrest]
  exact Nat.lt_succ_self _

theorem collect_of_nil (hs : s.window.rest = []) : s.collect = s := by
  simp only [collect, Window.next?, hs]

theorem Advances.collect (h : Advances s t) : Advances s t.collect := by
  by_cases ht : t.window.rest = []
  · rwa [collect_of_nil ht]
  · have hcollect := advances_collect ht
    exact ⟨Nat.lt_trans hcollect.lt h.lt, hcollect.size.trans h.size,
      hcollect.pending.trans h.pending⟩

/-- A marker that is seen is not empty. -/
theorem length_pos_of_startsWith {marker : List Char} (h : startsWith seen marker = true) :
    0 < marker.length := by
  cases marker with
  | nil => exact absurd h (by simp [startsWith])
  | cons c cs => exact Nat.zero_lt_succ _

/-- A comment is entered where its marker is seen. -/
theorem seen_of_commentMode? (h : s.commentMode? lx seen = some mode) :
    ∃ marker, startsWith seen marker = true ∧ triggerLength lx mode = marker.length ∧
      (mode = .lineComment ∧ lx.lineComment = some marker ∨
        mode = .blockComment ∧ ∃ stop, lx.blockComment = some (marker, stop)) := by
  unfold commentMode? at h
  split at h
  · cases h
  · split at h
    · next hline =>
      obtain rfl := Option.some.inj h
      obtain ⟨marker, hmarker, hseen⟩ := (Option.any_eq_true _ _).mp hline
      exact ⟨marker, hseen, by rw [triggerLength, hmarker]; rfl, .inl ⟨rfl, hmarker⟩⟩
    · split at h
      · next hblock =>
        obtain rfl := Option.some.inj h
        obtain ⟨⟨start, stop⟩, hmarker, hseen⟩ := (Option.any_eq_true _ _).mp hblock
        exact ⟨start, hseen, by rw [triggerLength, hmarker]; rfl, .inr ⟨rfl, stop, hmarker⟩⟩
      · cases h

theorem triggerLength_pos_of_commentMode? (h : s.commentMode? lx seen = some mode) :
    0 < triggerLength lx mode := by
  obtain ⟨marker, hseen, hlength, -⟩ := seen_of_commentMode? h
  rw [hlength]
  exact length_pos_of_startsWith hseen

theorem triggerLength_pos_of_or (h : (s.commentMode? lx seen).or (some .normal) = some mode) :
    0 < triggerLength lx mode := by
  cases hcomment : s.commentMode? lx seen with
  | none =>
    rw [hcomment, Option.none_or] at h
    obtain rfl := Option.some.inj h
    exact Nat.zero_lt_one
  | some mode' =>
    rw [hcomment, Option.some_or] at h
    obtain rfl := Option.some.inj h
    exact triggerLength_pos_of_commentMode? hcomment

/-- Changing the mode reads nothing by itself. -/
theorem nextMode_window (lx : Lexer) (s : Stream) (c : Char) (seen : List Char) :
    (s.nextMode lx c seen).2.window = s.window ∧ (s.nextMode lx c seen).2.mode = s.mode ∧
      (s.nextMode lx c seen).2.pending = s.pending := by
  unfold nextMode
  split
  · split <;> exact ⟨rfl, rfl, rfl⟩
  · split
    · exact ⟨rfl, rfl, rfl⟩
    · split <;> exact ⟨rfl, rfl, rfl⟩
  · exact ⟨rfl, rfl, rfl⟩
  · exact ⟨rfl, rfl, rfl⟩

/-- What makes the mode change is not empty: neither the start of what is entered nor the end of a
comment that is left. -/
theorem nextMode_some (h : (s.nextMode lx c seen).1 = some mode) :
    0 < triggerLength lx mode ∧
      (s.mode = .blockComment → 0 < (lx.blockComment.map fun (_, stop) => stop.length).getD 0) := by
  unfold nextMode at h
  cases hm : s.mode <;> rw [hm] at h <;> simp only at h
  case normal =>
    refine ⟨?_, nofun⟩
    split at h
    · obtain rfl := Option.some.inj h
      exact Nat.zero_lt_one
    · exact triggerLength_pos_of_commentMode? h
  case blanks =>
    refine ⟨?_, nofun⟩
    split at h
    · exact triggerLength_pos_of_or h
    · split at h
      · exact absurd h (by simp)
      · exact triggerLength_pos_of_or h
  case lineComment =>
    refine ⟨?_, nofun⟩
    split at h
    · obtain rfl := Option.some.inj h
      exact Nat.zero_lt_one
    · exact absurd h (by simp)
  case blockComment =>
    split at h
    · next hstop =>
      obtain rfl := Option.some.inj h
      obtain ⟨⟨start, stop⟩, hmarker, hseen⟩ := (Option.any_eq_true _ _).mp hstop
      refine ⟨Nat.zero_lt_one, ?_⟩
      intro _
      rw [hmarker]
      exact length_pos_of_startsWith hseen
    · exact absurd h (by simp)

theorem window_flush (s : Stream) : s.flush.2.window = s.window := by
  unfold flush
  split <;> rfl

theorem pending_flush (s : Stream) : s.flush.2.pending = s.pending := by
  unfold flush
  split <;> rfl

theorem advances_enter (hs : s.window.rest ≠ []) (hmode : 0 < triggerLength lx mode)
    (hstop : s.mode = .blockComment →
      0 < (lx.blockComment.map fun (_, stop) => stop.length).getD 0) :
    Advances s (s.enter lx mode).2 := by
  have hskip : ∀ n, 0 < n → Advances s (skip { s with mode } n) := by
    intro n hn
    have h := advances_skip (s := { s with mode }) hn hs
    exact ⟨h.lt, h.size, h.pending⟩
  unfold enter
  cases hm : s.mode with
  | normal =>
    have h := hskip _ hmode
    exact ⟨by rw [window_flush]; exact h.lt, by rw [window_flush]; exact h.size,
      by rw [pending_flush]; exact h.pending⟩
  | blanks =>
    simp only
    split
    · have h := advances_collect (s := { s with mode }) hs
      exact ⟨h.lt, h.size, h.pending⟩
    · exact hskip _ hmode
  | lineComment => exact hskip 1 Nat.zero_lt_one
  | blockComment => exact hskip _ (hstop hm)

theorem advances_consume (lx : Lexer) (c : Char) (seen : List Char) (hs : s.window.rest ≠ []) :
    Advances s (s.consume lx c seen) := by
  have hquote : ∀ quote, Advances s ({ s with openQuote := quote }).collect := by
    intro quote
    have h := advances_collect (s := { s with openQuote := quote }) hs
    exact ⟨h.lt, h.size, h.pending⟩
  unfold consume
  split
  · exact advances_skip Nat.zero_lt_one hs
  · split
    · exact advances_collect hs
    · split
      · exact hquote _
      · split
        · exact (advances_collect hs).collect
        · exact hquote _

/-- Every step reads something. -/
theorem advances_step (lx : Lexer) (c : Char) (seen : List Char) (hs : s.window.rest ≠ []) :
    Advances s (s.step lx c seen).2 := by
  obtain ⟨hwindow, hmode, hpending⟩ := nextMode_window lx s c seen
  have htransfer : ∀ {t : Stream}, Advances (s.nextMode lx c seen).2 t → Advances s t := by
    rintro t ⟨hlt, hsize, htokens⟩
    rw [hwindow] at hlt hsize
    exact ⟨hlt, hsize, htokens.trans hpending⟩
  have hrest : (s.nextMode lx c seen).2.window.rest ≠ [] := by rwa [hwindow]
  unfold step
  split
  · next mode t hnext =>
    have hspec := nextMode_some (congrArg Prod.fst hnext)
    rw [hnext] at htransfer hrest hmode
    exact htransfer (advances_enter hrest hspec.1 fun h => hspec.2 (hmode ▸ h))
  · next t hnext =>
    rw [hnext] at htransfer hrest
    exact htransfer (advances_consume lx c seen hrest)

/-- Between two chunks nothing is collected, and at least one character ahead can be seen. -/
structure Idle (s : Stream) : Prop where
  collected : s.collected = []
  size_pos : 0 < s.window.size

theorem idle_stream (lx : Lexer) (text : List Char) (source : Option String) :
    (lx.stream text source).Idle :=
  ⟨rfl, Nat.lt_of_lt_of_le Nat.zero_lt_one (Nat.le_max_right _ _)⟩

theorem idle_flush (hs : 0 < s.window.size) : s.flush.2.Idle := by
  unfold flush
  split
  · next h => exact ⟨List.isEmpty_iff.mp h, hs⟩
  · exact ⟨rfl, hs⟩

theorem flush_some (h : s.flush.1 = some chunk) : chunk.text ≠ [] := by
  unfold flush at h
  split at h
  · exact absurd h (by simp)
  · next hne =>
    obtain rfl := Option.some.inj h
    exact List.reverse_ne_nil_iff.mpr fun hnil => hne (by rw [hnil]; rfl)

theorem lookahead_eq_nil (hs : 0 < s.window.size) (h : s.window.lookahead = []) :
    s.window.rest = [] := by
  rcases List.take_eq_nil_iff.mp h with h | h
  · exact absurd h (Nat.ne_of_gt hs)
  · exact h

theorem rest_ne_nil (h : s.window.lookahead ≠ []) : s.window.rest ≠ [] := by
  intro hnil
  rw [Window.lookahead, hnil, List.take_nil] at h
  exact h rfl

theorem enter_some (hs : 0 < (s.enter lx mode).2.window.size)
    (h : (s.enter lx mode).1 = some chunk) : chunk.text ≠ [] ∧ (s.enter lx mode).2.Idle := by
  unfold enter at h hs ⊢
  cases hm : s.mode <;> rw [hm] at h hs <;> simp only at h hs ⊢
  case normal =>
    rw [window_flush] at hs
    exact ⟨flush_some h, idle_flush hs⟩
  case blanks => split at h <;> exact absurd h (by simp)
  all_goals exact absurd h (by simp)

theorem step_some (hs : 0 < s.window.size) (hrest : s.window.rest ≠ [])
    (h : (s.step lx c seen).1 = some chunk) : chunk.text ≠ [] ∧ (s.step lx c seen).2.Idle := by
  have hsize : 0 < (s.step lx c seen).2.window.size := by rwa [(advances_step lx c seen hrest).size]
  unfold step at h hsize ⊢
  split at h
  · next hnext =>
    rw [hnext] at hsize
    exact enter_some hsize h
  · exact absurd h (by simp)

/-- What reading a chunk comes to: the stream is idle again, at the end of the input if there was no
chunk, and further on if there was one. -/
structure ReadsChunk (s : Stream) (o : Option Chunk) (s' : Stream) : Prop where
  idle : s'.Idle
  rest_le : s'.window.rest.length ≤ s.window.rest.length
  rest_eq : o = none → s'.window.rest = []
  text_ne_nil : ∀ chunk, o = some chunk → chunk.text ≠ []
  rest_lt : ∀ chunk, o = some chunk → s.collected = [] →
    s'.window.rest.length < s.window.rest.length
  pending : s'.pending = s.pending

/-- At the end of the input what was collected is the last chunk. -/
theorem readsChunk_flush (hs : 0 < s.window.size) (hrest : s.window.rest = []) :
    ReadsChunk s s.flush.1 s.flush.2 where
  idle := idle_flush hs
  rest_le := Nat.le_of_eq (by rw [window_flush])
  rest_eq _ := by rw [window_flush, hrest]
  text_ne_nil _ h := flush_some h
  rest_lt chunk h hnil := by
    rw [flush, hnil] at h
    exact absurd h (by simp)
  pending := pending_flush s

theorem readsChunk_readChunk : ∀ {fuel : Nat} {s : Stream}, 0 < s.window.size →
    s.window.rest.length ≤ fuel → ReadsChunk s (s.readChunk lx fuel).1 (s.readChunk lx fuel).2
  | 0, s, hs, hfuel => readsChunk_flush hs (List.length_eq_zero_iff.mp (Nat.le_zero.mp hfuel))
  | fuel + 1, s, hs, hfuel => by
    unfold readChunk
    split
    · next hend => exact readsChunk_flush hs (lookahead_eq_nil hs hend)
    · next c cs hahead =>
      have hrest : s.window.rest ≠ [] := rest_ne_nil (by rw [hahead]; exact List.cons_ne_nil _ _)
      have hadvances := advances_step (s := s) lx c (c :: cs) hrest
      split
      · next chunk t hstep =>
        obtain ⟨htext, hidle⟩ := step_some hs hrest (congrArg Prod.fst hstep)
        rw [hstep] at hidle hadvances
        refine ⟨hidle, Nat.le_of_lt hadvances.lt, nofun, ?_, fun _ _ _ => hadvances.lt,
          hadvances.pending⟩
        intro chunk' h
        obtain rfl := Option.some.inj h
        exact htext
      · next t hstep =>
        rw [hstep] at hadvances
        have ht : 0 < t.window.size := by rwa [hadvances.size]
        have hreads := readsChunk_readChunk (s := t) ht
          (Nat.le_of_lt_succ (Nat.lt_of_lt_of_le hadvances.lt hfuel))
        have hlt := Nat.lt_of_le_of_lt hreads.rest_le hadvances.lt
        exact ⟨hreads.idle, Nat.le_of_lt hlt, hreads.rest_eq, hreads.text_ne_nil, fun _ _ _ => hlt,
          hreads.pending.trans hadvances.pending⟩

theorem readsChunk_nextChunk (lx : Lexer) (hs : s.Idle) :
    ReadsChunk s (s.nextChunk lx).1 (s.nextChunk lx).2 :=
  readsChunk_readChunk hs.size_pos (Nat.le_refl _)

end Stream

end GrammarGraph
