import GrammarGraph.Proofs.Scanning

/-!
# What stands behind a border

A step reads one character, a comment marker that stands there, or an escape character with the
quote behind it.  Up to a border in the text it does so whatever stands behind the border, unless it
reads across (`Stream.Agrees.step`).  So a text is scanned in front of another one as it is scanned
alone, if the scan stops at the border (`Stream.Agrees.scan`).
-/

namespace GrammarGraph

/-! ## What a step reads -/

/-- A text that a comment starts or ends with. -/
inductive Lexer.IsMarker (lx : Lexer) : List Char → Prop
  | line {marker : List Char} : lx.lineComment = some marker → IsMarker lx marker
  | start {start stop : List Char} : lx.blockComment = some (start, stop) → IsMarker lx start
  | stop {start stop : List Char} : lx.blockComment = some (start, stop) → IsMarker lx stop

namespace Stream

variable {lx : Lexer} {s t : Stream} {c : Char} {cs seen tail marker : List Char}
  {mode : Mode} {n : ℕ}

theorem two_le_fillSize (lx : Lexer) : 2 ≤ lx.fillSize :=
  le_trans (le_max_left _ _) (le_trans (le_max_left _ _) (le_max_left _ _))

theorem length_le_of_isMarker (h : lx.IsMarker marker) : marker.length ≤ lx.fillSize := by
  rw [Lexer.fillSize]
  cases h with
  | line h =>
    rw [h]
    exact le_trans (le_max_right _ _) (le_trans (le_max_left _ _) (le_max_left _ _))
  | start h =>
    rw [h]
    exact le_trans (le_max_right _ _) (le_max_left _ _)
  | stop h =>
    rw [h]
    exact le_max_right _ _

theorem startsWith_iff (hsize : marker.length ≤ s.window.size) :
    startsWith s.window.lookahead marker = true ↔ marker ≠ [] ∧ marker <+: s.window.rest :=
  ⟨prefix_of_startsWith, fun h => startsWith_of_prefix h.1 hsize h.2⟩

/-- How many characters a change of the mode reads. -/
def reads (lx : Lexer) (source target : Mode) : ℕ :=
  match source with
  | .normal | .blanks => triggerLength lx target
  | .lineComment => 1
  | .blockComment => (lx.blockComment.map fun (_, stop) => stop.length).getD 0

/-- Whether a step reads two characters: an escape character and a quote, inside a literal. -/
def escapes (lx : Lexer) (s : Stream) (c : Char) (seen : List Char) : Bool :=
  s.mode = .normal && lx.literal.isSome && s.openQuote.isSome && c = escapeChar &&
    (seen[1]?).any isQuote

/-- The open quote behind a character that is read into a chunk. -/
def quoteBehind (lx : Lexer) (c : Char) (openQuote : Option Char) : Option Char :=
  if lx.literal.isNone then openQuote
  else
    match openQuote with
    | none => if isQuote c then some c else none
    | some q => if c = q then none else some q

theorem consume_eq (lx : Lexer) (s : Stream) (c : Char) (seen : List Char) : s.consume lx c seen =
    if s.escapes lx c seen then s.collect.collect
    else if s.mode = .normal then ({ s with openQuote := quoteBehind lx c s.openQuote }).collect
    else s.skip 1 := by
  obtain ⟨window, mode, collected, before, openQuote, pending, source⟩ := s
  unfold consume escapes quoteBehind
  by_cases hmode : mode = .normal
  · subst hmode
    cases lx.literal <;> cases openQuote <;> simp
  · simp [hmode]

theorem rest_collect (s : Stream) : s.collect.window.rest = s.window.rest.drop 1 := by
  unfold collect Window.next?
  cases h : s.window.rest <;> simp [h]

theorem rest_enter (lx : Lexer) (s : Stream) (mode : Mode) :
    (s.enter lx mode).2.window.rest = s.window.rest.drop (reads lx s.mode mode) := by
  unfold enter reads
  cases s.mode with
  | normal =>
    simp only [window_flush]
    rfl
  | blanks =>
    simp only
    split
    · next hmode =>
      rw [hmode]
      exact rest_collect _
    · rfl
  | lineComment | blockComment => rfl

theorem commentMode?_some (h : s.commentMode? lx s.window.lookahead = some mode) : mode ≠ .normal ∧
    ∃ marker, lx.IsMarker marker ∧ marker <+: s.window.rest ∧
    triggerLength lx mode = marker.length := by
  obtain ⟨marker, hseen, hlength, ⟨rfl, hmarker⟩ | ⟨rfl, stop, hmarker⟩⟩ := seen_of_commentMode? h
  · exact ⟨by simp, marker, .line hmarker, (prefix_of_startsWith hseen).2, hlength⟩
  · exact ⟨by simp, marker, .start hmarker, (prefix_of_startsWith hseen).2, hlength⟩

theorem reads_of_or (h : (s.commentMode? lx s.window.lookahead).or (some .normal) = some mode) :
    triggerLength lx mode = 1 ∨
      ∃ marker, lx.IsMarker marker ∧ marker <+: s.window.rest ∧
      triggerLength lx mode = marker.length := by
  cases hcomment : s.commentMode? lx s.window.lookahead with
  | none =>
    rw [hcomment, Option.none_or] at h
    obtain rfl := Option.some.inj h
    exact .inl rfl
  | some mode' =>
    rw [hcomment, Option.some_or] at h
    obtain rfl := Option.some.inj h
    exact .inr (commentMode?_some hcomment).2

/-- A change of the mode reads one character, or a marker that stands there. -/
theorem reads_of_nextMode (h : (s.nextMode lx c s.window.lookahead).1 = some mode) :
    reads lx s.mode mode = 1 ∨
      ∃ marker, lx.IsMarker marker ∧ marker <+: s.window.rest ∧
        reads lx s.mode mode = marker.length := by
  unfold nextMode at h
  unfold reads
  cases hm : s.mode <;> rw [hm] at h <;> simp only at h ⊢
  case normal =>
    split at h
    · obtain rfl := Option.some.inj h
      exact .inl rfl
    · exact .inr (commentMode?_some h).2
  case blanks =>
    split at h
    · exact reads_of_or (s := { s with openQuote := toggleQuote c s.openQuote }) h
    · split at h
      · exact absurd h nofun
      · exact reads_of_or h
  case lineComment => exact .inl trivial
  case blockComment =>
    split at h
    · next hstop =>
      obtain ⟨⟨start, stop⟩, hmarker, hseen⟩ := (Option.any_eq_true _ _).mp hstop
      exact .inr ⟨stop, .stop hmarker, (prefix_of_startsWith hseen).2, by rw [hmarker]; rfl⟩
    · exact absurd h nofun

theorem reads_le (h : (s.nextMode lx c s.window.lookahead).1 = some mode)
    (hrest : s.window.rest ≠ []) : reads lx s.mode mode ≤ s.window.rest.length := by
  rcases reads_of_nextMode h with hone | ⟨marker, -, hprefix, hlength⟩
  · rw [hone]
    exact List.length_pos_iff.mpr hrest
  · rw [hlength]
    exact hprefix.length_le

theorem rest_consume (lx : Lexer) (s : Stream) (c : Char) (seen : List Char) :
    (s.consume lx c seen).window.rest =
      s.window.rest.drop (if s.escapes lx c seen then 2 else 1) := by
  rw [consume_eq]
  split
  · rw [rest_collect, rest_collect, List.drop_drop]
  · split
    · rw [rest_collect]
    · rfl

/-- An escape character goes together with a quote that stands behind it. -/
theorem exists_of_escapes (h : s.escapes lx c s.window.lookahead = true)
    (hrest : s.window.rest = c :: cs) : ∃ q rest, cs = q :: rest ∧ isQuote q = true := by
  unfold escapes at h
  obtain ⟨q, hq, hquote⟩ := (Option.any_eq_true _ _).mp (Bool.and_eq_true_iff.mp h).2
  rw [Window.lookahead, hrest, List.getElem?_take] at hq
  split at hq
  · cases cs with
    | nil => cases hq
    | cons d rest =>
      obtain rfl := Option.some.inj hq
      exact ⟨d, rest, rfl, hquote⟩
  · cases hq

theorem step_of_some {seen : List Char} (h : (s.nextMode lx c seen).1 = some mode) :
    s.step lx c seen = (s.nextMode lx c seen).2.enter lx mode := by
  rw [Stream.step]
  split
  · next mode' t hnext =>
    rw [hnext] at h ⊢
    obtain rfl := Option.some.inj h
    rfl
  · next t hnext =>
    rw [hnext] at h
    cases h

theorem nextMode_none {seen : List Char} (h : (s.nextMode lx c seen).1 = none) :
    (s.nextMode lx c seen).2 = s := by
  unfold nextMode at h ⊢
  cases hm : s.mode <;> rw [hm] at h <;> simp only at h ⊢
  case normal => split <;> rfl
  case blanks =>
    split at h
    · cases hcomment : commentMode? lx { s with openQuote := toggleQuote c s.openQuote } seen <;>
        exact absurd (hcomment ▸ h) nofun
    · next hquote =>
      rw [if_neg hquote]
      split <;> rfl

theorem step_of_none {seen : List Char} (h : (s.nextMode lx c seen).1 = none) :
    s.step lx c seen = (none, s.consume lx c seen) := by
  have hsame := nextMode_none h
  rw [Stream.step]
  split
  · next mode t hnext =>
    rw [hnext] at h
    cases h
  · next t hnext =>
    rw [hnext] at hsame
    rw [← hsame]

/-- A step reads one character, an escape character and a quote, or a marker that stands there. -/
theorem rest_step (lx : Lexer) (hrest : s.window.rest = c :: cs) : ∃ n,
    (s.step lx c s.window.lookahead).2.window.rest = s.window.rest.drop n ∧
      (n = 1 ∨ (n = 2 ∧ ∃ q rest, cs = q :: rest ∧ isQuote q = true) ∨
        ∃ marker, lx.IsMarker marker ∧ marker <+: s.window.rest ∧ n = marker.length) := by
  cases hnext : (s.nextMode lx c s.window.lookahead).1 with
  | some mode =>
    obtain ⟨hwindow, hmode, -⟩ := nextMode_window lx s c s.window.lookahead
    refine ⟨reads lx s.mode mode, by rw [step_of_some hnext, rest_enter, hwindow, hmode], ?_⟩
    exact (reads_of_nextMode hnext).imp_right .inr
  | none =>
    rw [step_of_none hnext]
    refine ⟨_, rest_consume lx s c s.window.lookahead, ?_⟩
    split
    · next hescapes => exact .inr (.inl ⟨rfl, exists_of_escapes hescapes hrest⟩)
    · exact .inl rfl

/-! ## The text that a step does not reach -/

/-- Two streams that differ in their positions, and in that there is more behind what the
first has left to read. -/
structure Agrees (lx : Lexer) (tail : List Char) (s t : Stream) : Prop where
  rest : t.window.rest = s.window.rest ++ tail
  mode : t.mode = s.mode
  collected : t.collected = s.collected
  openQuote : t.openQuote = s.openQuote
  size_left : lx.fillSize ≤ s.window.size
  size_right : lx.fillSize ≤ t.window.size

theorem agrees_stream (lx : Lexer) (text tail : List Char) (source : Option String) :
    Agrees lx tail (lx.stream text source) (lx.stream (text ++ tail) source) :=
  ⟨rfl, rfl, rfl, rfl, le_max_left _ _, le_max_left _ _⟩

namespace Agrees

theorem size_pos (h : Agrees lx tail s t) : 0 < s.window.size ∧ 0 < t.window.size :=
  ⟨lt_of_lt_of_le Nat.zero_lt_two ((two_le_fillSize lx).trans h.size_left),
    lt_of_lt_of_le Nat.zero_lt_two ((two_le_fillSize lx).trans h.size_right)⟩

theorem setMode (h : Agrees lx tail s t) (mode : Mode) :
    Agrees lx tail { s with mode } { t with mode } :=
  ⟨h.rest, rfl, h.collected, h.openQuote, h.size_left, h.size_right⟩

theorem setQuote (h : Agrees lx tail s t) (openQuote : Option Char) :
    Agrees lx tail { s with openQuote } { t with openQuote } :=
  ⟨h.rest, h.mode, h.collected, rfl, h.size_left, h.size_right⟩

theorem skip (h : Agrees lx tail s t) (hn : n ≤ s.window.rest.length) :
    Agrees lx tail (s.skip n) (t.skip n) := by
  refine ⟨?_, h.mode, h.collected, h.openQuote, h.size_left, h.size_right⟩
  show t.window.rest.drop n = s.window.rest.drop n ++ tail
  rw [h.rest, List.drop_append_of_le_length hn]

theorem collect (h : Agrees lx tail s t) (hrest : s.window.rest ≠ []) :
    Agrees lx tail s.collect t.collect := by
  obtain ⟨c, cs, hs⟩ := List.exists_cons_of_ne_nil hrest
  have ht : t.window.rest = c :: (cs ++ tail) := by rw [h.rest, hs, List.cons_append]
  unfold Stream.collect Window.next?
  rw [hs, ht]
  exact ⟨rfl, h.mode, congrArg (c :: ·) h.collected, h.openQuote, h.size_left, h.size_right⟩

theorem flush (h : Agrees lx tail s t) :
    s.flush.1.map Chunk.text = t.flush.1.map Chunk.text ∧ Agrees lx tail s.flush.2 t.flush.2 := by
  unfold Stream.flush
  rw [h.collected]
  split
  · exact ⟨rfl, h⟩
  · exact ⟨rfl, h.rest, h.mode, rfl, h.openQuote, h.size_left, h.size_right⟩

theorem enter (h : Agrees lx tail s t) (hrest : s.window.rest ≠ [])
    (hn : reads lx s.mode mode ≤ s.window.rest.length) :
    (s.enter lx mode).1.map Chunk.text = (t.enter lx mode).1.map Chunk.text ∧
      Agrees lx tail (s.enter lx mode).2 (t.enter lx mode).2 := by
  unfold Stream.enter
  unfold reads at hn
  rw [h.mode]
  cases hm : s.mode <;> rw [hm] at hn <;> simp only at hn ⊢
  case normal => exact ((h.setMode mode).skip hn).flush
  case blanks =>
    split
    · exact ⟨rfl, (h.setMode mode).collect hrest⟩
    · exact ⟨rfl, (h.setMode mode).skip hn⟩
  case lineComment => exact ⟨trivial, (h.setMode mode).skip hn⟩
  case blockComment => exact ⟨trivial, (h.setMode mode).skip hn⟩

theorem startsWith (h : Agrees lx tail s t) (hmarker : lx.IsMarker marker)
    (hwithin : startsWith t.window.lookahead marker = true → marker.length ≤ s.window.rest.length) :
    startsWith s.window.lookahead marker = startsWith t.window.lookahead marker := by
  have hsize := length_le_of_isMarker hmarker
  rw [Bool.eq_iff_iff, startsWith_iff (hsize.trans h.size_left),
    startsWith_iff (hsize.trans h.size_right)]
  rw [startsWith_iff (hsize.trans h.size_right)] at hwithin
  refine and_congr_right fun hne => ⟨fun hs => ?_, fun ht => ?_⟩
  · rw [h.rest]
    exact hs.trans (List.prefix_append _ _)
  · have hlength := hwithin ⟨hne, ht⟩
    rw [h.rest] at ht
    exact List.prefix_of_prefix_length_le ht (List.prefix_append _ _) hlength

theorem commentMode? (h : Agrees lx tail s t)
    (hwithin : ∀ mode, t.commentMode? lx t.window.lookahead = some mode →
      triggerLength lx mode ≤ s.window.rest.length) :
    s.commentMode? lx s.window.lookahead = t.commentMode? lx t.window.lookahead := by
  unfold Stream.commentMode? at hwithin ⊢
  rw [h.openQuote] at hwithin ⊢
  by_cases hquote : s.openQuote.isSome = true
  · rw [if_pos hquote, if_pos hquote]
  · rw [if_neg hquote, if_neg hquote]
    rw [if_neg hquote] at hwithin
    have hline : lx.lineComment.any (Stream.startsWith s.window.lookahead ·) =
        lx.lineComment.any (Stream.startsWith t.window.lookahead ·) := by
      cases hmarker : lx.lineComment with
      | none => rfl
      | some marker =>
        refine h.startsWith (.line hmarker) fun hseen => ?_
        have hle := hwithin .lineComment (by rw [hmarker]; exact if_pos hseen)
        rwa [triggerLength, hmarker] at hle
    rw [hline]
    split
    · rfl
    · next hno =>
      rw [if_neg hno] at hwithin
      have hblock :
          (lx.blockComment.any fun (start, _) => Stream.startsWith s.window.lookahead start) =
          lx.blockComment.any fun (start, _) => Stream.startsWith t.window.lookahead start := by
        cases hmarker : lx.blockComment with
        | none => rfl
        | some markers =>
          refine h.startsWith (.start hmarker) fun hseen => ?_
          have hle := hwithin .blockComment (by rw [hmarker]; exact if_pos hseen)
          rwa [triggerLength, hmarker] at hle
      rw [hblock]

/-- The same mode is entered, if what stands there for that ends in time. -/
theorem nextMode (h : Agrees lx tail s t)
    (hwithin : ∀ mode, (t.nextMode lx c t.window.lookahead).1 = some mode →
      reads lx t.mode mode ≤ s.window.rest.length) :
    (s.nextMode lx c s.window.lookahead).1 = (t.nextMode lx c t.window.lookahead).1 ∧
      Agrees lx tail (s.nextMode lx c s.window.lookahead).2
      (t.nextMode lx c t.window.lookahead).2 := by
  unfold Stream.nextMode at hwithin ⊢
  rw [h.mode] at hwithin ⊢
  cases hm : s.mode <;> rw [hm] at hwithin <;> simp only [h.openQuote] at hwithin ⊢
  case normal =>
    split
    · exact ⟨rfl, h⟩
    · next hblank =>
      rw [if_neg hblank] at hwithin
      exact ⟨h.commentMode? hwithin, h⟩
  case blanks =>
    -- A quote is first taken as the end of the blanks.
    have hcomment :
        ∀ openQuote, (∀ mode, (Stream.commentMode? lx { t with openQuote } t.window.lookahead).or
        (some .normal) = some mode → reads lx .blanks mode ≤ s.window.rest.length) →
        Stream.commentMode? lx { s with openQuote } s.window.lookahead =
          Stream.commentMode? lx { t with openQuote } t.window.lookahead := fun openQuote hor =>
      (h.setQuote openQuote).commentMode? fun mode hmode => hor mode (by rw [hmode]; rfl)
    split
    · next hquote =>
      rw [if_pos hquote] at hwithin
      exact ⟨congrArg (·.or (some .normal)) (hcomment _ hwithin),
        (h.setQuote (toggleQuote c s.openQuote)).setMode .blanks⟩
    · next hquote =>
      rw [if_neg hquote] at hwithin
      split
      · exact ⟨rfl, h⟩
      · next hblank =>
        rw [if_neg hblank] at hwithin
        exact ⟨congrArg (·.or (some .normal))
          (h.commentMode? fun mode hmode => hwithin mode (by rw [hmode]; rfl)), h⟩
  case lineComment => exact ⟨trivial, h⟩
  case blockComment =>
    refine ⟨?_, h⟩
    have hstop : (lx.blockComment.any fun (_, stop) => Stream.startsWith s.window.lookahead stop) =
        lx.blockComment.any fun (_, stop) => Stream.startsWith t.window.lookahead stop := by
      cases hmarker : lx.blockComment with
      | none => rfl
      | some markers =>
        refine h.startsWith (.stop hmarker) fun hseen => ?_
        have hle := hwithin .normal (by rw [hmarker]; exact if_pos hseen)
        rwa [reads, hmarker] at hle
    rw [hstop]

theorem rest_eq_cons (h : Agrees lx tail s t) (hrest : s.window.rest = c :: cs) :
    t.window.rest = c :: (cs ++ tail) := by
  rw [h.rest, hrest, List.cons_append]

/-- The character behind an escape character is the same, unless there is none. -/
theorem lookahead_one (h : Agrees lx tail s t) {d : Char} (hrest : s.window.rest = c :: d :: cs) :
    s.window.lookahead[1]? = some d ∧ t.window.lookahead[1]? = some d := by
  have hleft := lt_of_lt_of_le Nat.one_lt_two ((two_le_fillSize lx).trans h.size_left)
  have hright := lt_of_lt_of_le Nat.one_lt_two ((two_le_fillSize lx).trans h.size_right)
  rw [Window.lookahead, Window.lookahead, List.getElem?_take_of_lt hleft,
    List.getElem?_take_of_lt hright, h.rest_eq_cons hrest, hrest]
  exact ⟨rfl, rfl⟩

/-- Whether the escape character and the quote behind it go together. -/
theorem escapes (h : Agrees lx tail s t) (hrest : s.window.rest = c :: cs)
    (hwithin : t.escapes lx c t.window.lookahead = true → 2 ≤ s.window.rest.length) :
    s.escapes lx c s.window.lookahead = t.escapes lx c t.window.lookahead := by
  unfold Stream.escapes at hwithin ⊢
  rw [h.mode, h.openQuote] at *
  cases cs with
  | nil =>
    have hnone : s.window.lookahead[1]? = none := by
      rw [Window.lookahead, hrest, List.getElem?_eq_none]
      rw [List.length_take]
      exact min_le_right _ _
    rw [hnone, Option.any_none, Bool.and_false]
    by_contra hescapes
    have htwo := hwithin (eq_true_of_ne_false fun hfalse => hescapes hfalse.symm)
    rw [hrest] at htwo
    exact absurd htwo (by simp)
  | cons d ds =>
    obtain ⟨hs, ht⟩ := h.lookahead_one hrest
    rw [hs, ht]

theorem consume (h : Agrees lx tail s t) (hrest : s.window.rest = c :: cs)
    (hwithin : t.escapes lx c t.window.lookahead = true → 2 ≤ s.window.rest.length) :
    Agrees lx tail (s.consume lx c s.window.lookahead) (t.consume lx c t.window.lookahead) := by
  have hne : s.window.rest ≠ [] := by rw [hrest]; exact List.cons_ne_nil _ _
  rw [consume_eq, consume_eq, h.escapes hrest hwithin, h.openQuote]
  split
  · next hescapes =>
    have htwo := hwithin hescapes
    refine (h.collect hne).collect (List.ne_nil_of_length_pos ?_)
    rw [rest_collect, List.length_drop]
    exact Nat.sub_pos_of_lt htwo
  · by_cases hmode : s.mode = .normal
    · rw [if_pos hmode, if_pos (h.mode.trans hmode)]
      exact (h.setQuote (quoteBehind lx c s.openQuote)).collect hne
    · rw [if_neg hmode, if_neg (by rwa [h.mode])]
      exact h.skip (List.length_pos_iff.mpr hne)

/-- The steps are the same, if what the longer one reads ends in time. -/
theorem step (h : Agrees lx tail s t) (hrest : s.window.rest = c :: cs)
    (hwithin : tail.length ≤ (t.step lx c t.window.lookahead).2.window.rest.length) :
    (s.step lx c s.window.lookahead).1.map Chunk.text =
        (t.step lx c t.window.lookahead).1.map Chunk.text ∧
      Agrees lx tail (s.step lx c s.window.lookahead).2 (t.step lx c t.window.lookahead).2 := by
  have hne : s.window.rest ≠ [] := by rw [hrest]; exact List.cons_ne_nil _ _
  obtain ⟨hwindow, hmode, -⟩ := nextMode_window lx t c t.window.lookahead
  have htotal : t.window.rest.length = s.window.rest.length + tail.length := by
    rw [h.rest, List.length_append]
  have hne' : t.window.rest ≠ [] := by rw [h.rest_eq_cons hrest]; exact List.cons_ne_nil _ _
  obtain ⟨hsame, hagrees⟩ := h.nextMode (c := c) fun mode hnext => by
    have hle := reads_le hnext hne'
    rw [step_of_some hnext, rest_enter, hwindow, hmode, List.length_drop] at hwithin
    omega
  obtain ⟨hwindow', hmode', -⟩ := nextMode_window lx s c s.window.lookahead
  cases hnext : (t.nextMode lx c t.window.lookahead).1 with
  | some mode =>
    rw [step_of_some hnext, step_of_some (hsame.trans hnext)]
    refine hagrees.enter (by rwa [hwindow']) ?_
    have hle := reads_le hnext hne'
    rw [step_of_some hnext, rest_enter, hwindow, hmode, List.length_drop] at hwithin
    rw [hmode', hwindow', ← h.mode]
    omega
  | none =>
    rw [step_of_none hnext, step_of_none (hsame.trans hnext)]
    rw [step_of_none hnext, rest_consume, List.length_drop] at hwithin
    refine ⟨rfl, h.consume hrest fun hescapes => ?_⟩
    obtain ⟨q, rest, hcs, -⟩ := exists_of_escapes hescapes (h.rest_eq_cons hrest)
    have htwo : 2 ≤ t.window.rest.length := by
      rw [h.rest_eq_cons hrest, hcs]
      exact Nat.le_add_left 2 _
    rw [if_pos hescapes] at hwithin
    omega

/-- A scan up to the border is that of the text in front of it alone, unless a step
reads across the border. -/
theorem scan (h : Agrees lx tail s t) (hstands : (t.scan lx tail.length).2.window.rest = tail) :
    (s.scan lx 0).1 = (t.scan lx tail.length).1 ∧
      Agrees lx tail (s.scan lx 0).2 (t.scan lx tail.length).2 := by
  refine step_induction (P := fun s => ∀ t, Agrees lx tail s t →
    (t.scan lx tail.length).2.window.rest = tail → (s.scan lx 0).1 = (t.scan lx tail.length).1 ∧
    Agrees lx tail (s.scan lx 0).2 (t.scan lx tail.length).2) lx 0 h.size_pos.1 ?_ ?_ t h hstands
  · intro s _ hrest t h _
    have hnil : s.window.rest = [] := List.length_eq_zero_iff.mp (Nat.le_zero.mp hrest)
    rw [scan_of_le hrest, scan_of_le (by rw [h.rest, hnil]; exact le_refl _)]
    exact ⟨rfl, h⟩
  · intro s c cs _ hrest hseen ih t h hstands
    obtain ⟨rest, hs⟩ := exists_rest hseen
    have ht := h.rest_eq_cons hs
    obtain ⟨seen, hseen'⟩ := exists_seen h.size_pos.2 ht
    have hleft : tail.length < t.window.rest.length := by
      rw [ht, List.length_cons, List.length_append]
      omega
    have hwithin : tail.length ≤ (t.step lx c (c :: seen)).2.window.rest.length := by
      by_contra hlt
      rw [scan_step hleft hseen', scan_of_le (le_of_lt (not_le.mp hlt))] at hstands
      exact hlt (le_of_eq (congrArg List.length hstands.symm))
    rw [← hseen'] at hwithin
    obtain ⟨hchunk, hstep⟩ := h.step hs hwithin
    rw [scan_step hleft hseen'] at hstands ⊢
    rw [scan_step hrest hseen]
    rw [hseen, hseen'] at hchunk hstep
    obtain ⟨htexts, hagrees⟩ := ih _ hstep hstands
    refine ⟨?_, hagrees⟩
    rw [htexts, ← Option.toList_map, ← Option.toList_map, hchunk]

theorem leftover (h : Agrees lx tail s t) : s.leftover = t.leftover := by
  rw [Stream.leftover, Stream.leftover, ← Option.toList_map, ← Option.toList_map, h.flush.1]

theorem scanAll (h : Agrees lx [] s t) : (s.scanAll lx).1 = (t.scanAll lx).1 := by
  obtain ⟨htexts, hagrees⟩ := h.scan (rest_scan_zero lx h.size_pos.2)
  show _ ++ _ = _ ++ _
  rw [htexts, hagrees.leftover]
  rfl

end Agrees

end Stream

end GrammarGraph
