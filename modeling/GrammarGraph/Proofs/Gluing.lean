import GrammarGraph.Proofs.Classifying
import GrammarGraph.Proofs.Escaping
import GrammarGraph.Proofs.Keywords
import GrammarGraph.Proofs.Literals

/-!
# Markers next to literals

A marker and the literal that it is glued to are one chunk, whatever the literal holds
(`Stream.Ready.hands_glued_right` and its sibling).  But the pattern that takes off the marker reads
no white space.  So the marker is a token of its own exactly if there is none in the literal, and
else the whole chunk is looked up as a keyword or a word (`Lexer.tokenizeFrom_glued_iff`).  A blank
between the quotes is enough (`Sample.glued_by_blank`).
-/

namespace GrammarGraph

variable {text inner rest : List Char} {q c d k : Char}

/-! ## One literal -/

/-- It is its own quote that closes a literal. -/
theorem Stream.eq_of_openBehind_concat {openQuote : Option Char}
    (hopen : openBehind openQuote text = some k)
    (hclosed : openBehind openQuote (text ++ [d]) = none) : d = k := by
  fun_induction openBehind openQuote text with
  | case1 openQuote =>
    subst hopen
    rw [List.nil_append, openBehind] at hclosed
    by_contra hne
    rw [if_neg hne] at hclosed
    cases hclosed
  | case2 c cs ih => exact ih hopen hclosed
  | case3 q => cases hopen
  | case4 q c hc =>
    obtain rfl := Option.some.inj hopen
    rw [List.singleton_append, openBehind.eq_4, if_neg hc] at hclosed
    by_contra hne
    split at hclosed
    · cases hclosed
    · rw [openBehind, if_neg hne] at hclosed
      cases hclosed
  | case5 q c e cs hpair ih =>
    rw [List.cons_append, List.cons_append, openBehind.eq_4, if_pos hpair] at hclosed
    exact ih hopen hclosed
  | case6 q c e cs hpair ih =>
    rw [List.cons_append, List.cons_append, openBehind.eq_4, if_neg hpair] at hclosed
    exact ih hopen hclosed

/-- A literal stands between two of its quotes. -/
theorem OneLiteral.exists_inner (h : OneLiteral q text) (hq : isQuote q = true) :
    ∃ inner, text = q :: (inner ++ [q]) ∧ Within q inner ∧ inner.getLast? ≠ some escapeChar := by
  obtain ⟨rest, rfl⟩ := List.head?_eq_some_iff.mp h.head
  have hopening : ∀ front, Stream.openBehind none (q :: front) = Stream.openBehind (some q) front :=
    fun front => by
    rw [Stream.openBehind, if_pos hq]
  rcases List.eq_nil_or_concat rest with rfl | ⟨inner, d, rfl⟩
  · have hclosed := h.closed
    rw [hopening] at hclosed
    cases hclosed
  · rw [List.concat_eq_append] at h ⊢
    have hopen := h.openBehind (q :: inner) [d] rfl (List.cons_ne_nil _ _) (List.cons_ne_nil _ _)
    obtain rfl := Stream.eq_of_openBehind_concat hopen h.closed
    exact ⟨inner, rfl, (oneLiteral_iff hq).mp h⟩

/-! ## One chunk -/

namespace Stream

variable {lx : Lexer} {s : Stream} {source : Option String} {front marker : List Char}
  {P : Option Chunk × Stream → Prop}

/-- A quote is collected, and opens a literal. -/
theorem Midway.hands_quote (hlx : lx.literal.isSome = true) (hq : isQuote q = true)
    (hcomment : lx.startsComment q = false) (h : Midway s source front none (q :: rest))
    (hnext : ∀ t, Midway t source (front ++ [q]) (some q) rest → Hands lx t P) : Hands lx s P := by
  obtain ⟨seen, hseen, -⟩ := exists_lookahead h.rest h.size
  have hstep : s.step lx q (q :: seen) = (none, s.consume lx q (q :: seen)) := by
    simp only [Stream.step, nextMode, h.mode, not_isBlank_of_isQuote hq, Bool.and_false,
      Bool.false_eq_true, if_false, commentMode?_eq_none hcomment]
  refine .step (hnext _ ?_) hseen hstep
  rw [h.consume_plain hlx, if_pos hq]
  exact (h.setQuote (some q)).collect

section

variable (hlx : lx.literal.isSome = true) (hcomment : ∀ c, lx.startsComment c = false)
  (hq : isQuote q = true) (hinner : Within q inner) (hlast : inner.getLast? ≠ some escapeChar)
  (hplain : ∀ c ∈ marker, Text.isBlank c = false ∧ isQuote c = false)

include hlx hcomment hq hinner hlast hplain

/-- A literal behind a text without blanks and quotes is read together with it. -/
theorem Ready.hands_glued_right (hne : marker ≠ [])
    (h : Ready s source (marker ++ q :: (inner ++ [q]))) :
    Hands lx s fun (o, t) => ∃ before, o = some ⟨marker ++ q :: (inner ++ [q]), before⟩ ∧
      Ready t source [] := by
  obtain ⟨c, cs, rfl⟩ := List.exists_cons_of_ne_nil hne
  obtain ⟨⟨hblank, hquote⟩, hcs⟩ := List.forall_mem_cons.mp hplain
  refine h.hands_start (fun hc => absurd (hquote.symm.trans hc) nofun) hblank (hcomment c)
    fun t ht => ?_
  rw [hquote, if_neg Bool.false_ne_true] at ht
  refine ht.hands_word (fun d hd => ⟨(hcs d hd).1, (hcs d hd).2, hcomment d⟩) fun t ht => ?_
  refine ht.hands_quote hlx hq (hcomment q) fun t ht => ?_
  refine ht.hands_literal hlx hq hinner hlast fun t ht => ?_
  have hchunk : Hands lx t _ := ht.hands_chunk (by simp) nofun
  simpa using hchunk

/-- A literal in front of a text without blanks and quotes is read together with it. -/
theorem Ready.hands_glued_left (h : Ready s source (q :: (inner ++ [q]) ++ marker)) :
    Hands lx s fun (o, t) => ∃ before, o = some ⟨q :: (inner ++ [q]) ++ marker, before⟩ ∧
      Ready t source [] := by
  have hrest : q :: (inner ++ [q]) ++ marker = q :: (inner ++ q :: (marker ++ [])) := by simp
  rw [hrest] at h
  refine h.hands_start (fun _ => hlx) (not_isBlank_of_isQuote hq) (hcomment q) fun t ht => ?_
  rw [if_pos hq] at ht
  refine ht.hands_literal hlx hq hinner hlast fun t ht => ?_
  refine ht.hands_word (fun d hd => ⟨(hplain d hd).1, (hplain d hd).2, hcomment d⟩) fun t ht => ?_
  have hchunk : Hands lx t _ := ht.hands_chunk (by simp) nofun
  simpa using hchunk

end

end Stream

/-! ## Texts that end with a quote -/

theorem ne_nil_of_isLiteralText (h : isLiteralText text = true) : text ≠ [] := by
  rintro rfl
  cases h

theorem isLiteralText_append_left {marker : List Char} (hne : marker ≠ [])
    (hmarker : Quoteless marker) (text : List Char) : isLiteralText (marker ++ text) = false := by
  obtain ⟨c, cs, rfl⟩ := List.exists_cons_of_ne_nil hne
  rw [List.cons_append, isLiteralText, hmarker c List.mem_cons_self, Bool.false_and]

/-- The quote that a literal ends with is not in a marker. -/
theorem append_ne_of_quoteless {marker : List Char} (hne : marker ≠ []) (hmarker : Quoteless marker)
    (htext : isLiteralText text = true) (front rest : List Char) :
    front ++ text ≠ rest ++ marker := by
  intro heq
  obtain ⟨q, inner, hq, rfl⟩ := exists_of_isLiteralText htext
  have hlast := congrArg List.getLast? heq
  rw [← List.cons_append, ← List.append_assoc, List.getLast?_concat, List.getLast?_append,
    List.getLast?_eq_some_getLast hne] at hlast
  obtain rfl := Option.some.inj hlast
  exact absurd ((hmarker _ (List.getLast_mem hne)).symm.trans hq) nofun

theorem isLiteralText_append_right {marker : List Char} (hne : marker ≠ [])
    (hmarker : Quoteless marker) (text : List Char) : isLiteralText (text ++ marker) = false :=
  Bool.eq_false_iff.mpr fun h => append_ne_of_quoteless hne hmarker h [] text rfl

namespace TokenKind

variable {marker : String}

theorem remainingRight?_append (hne : text ≠ []) :
    (leading marker).remainingRight? (marker.toList ++ text) =
    if Spaceless text then some text else none := by
  split
  · next hspace => exact remainingRight?_eq_some_iff.mpr ⟨rfl, hne, hspace⟩
  · next hspace =>
    refine Option.eq_none_iff_forall_ne_some.mpr fun rest hrest => hspace ?_
    obtain ⟨heq, -, hrest⟩ := remainingRight?_eq_some_iff.mp hrest
    rwa [List.append_cancel_left heq]

theorem remainingLeft?_append (hne : text ≠ []) :
    (trailing marker).remainingLeft? (text ++ marker.toList) =
    if Spaceless text then some text else none := by
  split
  · next hspace => exact remainingLeft?_eq_some_iff.mpr ⟨rfl, hne, hspace⟩
  · next hspace =>
    refine Option.eq_none_iff_forall_ne_some.mpr fun rest hrest => hspace ?_
    obtain ⟨heq, -, hrest⟩ := remainingLeft?_eq_some_iff.mp hrest
    rwa [List.append_cancel_right heq]

theorem remainingRight?_eq_none (hne : marker.toList ≠ []) (hmarker : Quoteless marker.toList)
    {back : List Char} (htext : isLiteralText text = true) :
    (leading marker).remainingRight? (text ++ back) = none := by
  refine Option.eq_none_iff_forall_ne_some.mpr fun rest hrest => ?_
  obtain ⟨heq, -⟩ := remainingRight?_eq_some_iff.mp hrest
  obtain ⟨q, inner, hq, rfl⟩ := exists_of_isLiteralText htext
  obtain ⟨c, cs, hcs⟩ := List.exists_cons_of_ne_nil hne
  rw [hcs] at heq
  obtain rfl : q = c := (List.cons.inj heq).1
  exact absurd ((hmarker q (by rw [hcs]; exact List.mem_cons_self)).symm.trans hq) nofun

theorem remainingLeft?_eq_none (hne : marker.toList ≠ []) (hmarker : Quoteless marker.toList)
    {front : List Char} (htext : isLiteralText text = true) :
    (trailing marker).remainingLeft? (front ++ text) = none :=
  Option.eq_none_iff_forall_ne_some.mpr fun rest hrest =>
    append_ne_of_quoteless hne hmarker htext front rest (remainingLeft?_eq_some_iff.mp hrest).1

end TokenKind

namespace Lexer

variable {lx : Lexer} {source : Option String} {types : List TokenType}
  {literal leading trailing : TokenType} {before : Position} {m n : String}

/-- A text that is one chunk is classified as it stands. -/
theorem tokenizeFrom_of_chunk (h : Stream.Hands lx (lx.stream text source) fun (o, t) =>
      ∃ before, o = some ⟨text, before⟩ ∧ Stream.Ready t source []) :
    lx.tokenizeFrom text source =
      (lx.classify text .beforeText).mapError (·.toParseError source) := by
  have hands := h _ (Nat.le_refl _)
  obtain ⟨hgives, -⟩ := (Stream.at_stream lx text source).nextChunk
  have hdrain :
      ((lx.stream text source).results lx).1 = Stream.ofChunk lx source ⟨text, .beforeText⟩ := by
    rw [Stream.fst_results_of_pending_nil lx rfl, Stream.drain]
    rw [← Stream.nextChunk] at hands
    generalize (lx.stream text source).nextChunk lx = read at hands hgives
    obtain ⟨o, t⟩ := read
    obtain ⟨before, rfl, hready⟩ := hands
    cases hgives with
    | @chunk gap gap' _ _ _ _ hbefore hat hcollected =>
      -- All of the text is in the chunk, and none of it in front.
      have hlength := congrArg List.length hat.text_eq
      simp only [List.length_append, List.nil_append] at hlength
      obtain rfl : gap = [] := List.length_eq_zero_iff.mp (by omega)
      obtain rfl : before = .beforeText := hbefore
      simp only [hready.drain_nil, hready.source, List.append_nil]
  rw [tokenizeFrom, hdrain, Stream.ofChunk]
  cases hclassify : lx.classify text .beforeText with
  | error u => rfl
  | ok tokens => exact mapM_id_eq_ok.mpr rfl

/-! ## Taking off a marker -/

/-- A type for literals, one with a leading and one with a trailing marker, and no others
but keywords and words. -/
structure Glues (types : List TokenType) (literal leading trailing : TokenType)
    (m n : String) : Prop where
  literal_mem : literal ∈ types
  leading_mem : leading ∈ types
  trailing_mem : trailing ∈ types
  literal_kind : literal.kind = .literal
  leading_kind : leading.kind = .leading m
  trailing_kind : trailing.kind = .trailing n
  others : ∀ t ∈ types, t = literal ∨ t = leading ∨ t = trailing ∨ t.kind.isKeyword = true ∨
    t.kind.isWord = true

theorem findSome?_of_forall_eq {α β : Type} {f : α → Option β} {a : α} {l : List α}
    (hall : ∀ b ∈ l, b = a) (hmem : a ∈ l) : l.findSome? f = f a := by
  cases hf : f a with
  | none => exact List.findSome?_eq_none_iff.mpr fun b hb => by rw [hall b hb, hf]
  | some x =>
    obtain ⟨b, bs, rfl⟩ := List.exists_cons_of_ne_nil (List.ne_nil_of_mem hmem)
    rw [hall b List.mem_cons_self, List.findSome?_cons, hf]

/-- A text that is looked up as a keyword or a word. -/
def asPlain (lx : Lexer) (text : List Char) (before : Position) : Except UnknownSpan (List Token) :=
  match lx.plainTypes text with
  | [] => .error ⟨text, before.firstOf lx.tabSize text⟩
  | types => .ok [lx.token text types before]

/-- A text without separators is one span. -/
theorem classifyText_of_split (hsplit : lx.splitter.split text = [.plain text]) (fuel : Nat)
    (before : Position) : lx.classifyText (fuel + 1) text before =
      lx.classifySpan (lx.classifyText fuel) text before := by
  rw [classifyText, hsplit, classifySpans, classifySpans]
  show (do
      let tokens ← lx.classifySpan _ text before; let more ← Except.ok []; return tokens ++ more) =
      _
  cases lx.classifySpan (lx.classifyText fuel) text before with
  | error u => rfl
  | ok tokens => exact congrArg Except.ok (List.append_nil tokens)

namespace Glues

variable {t : TokenType}

theorem eq_literal (h : Glues types literal leading trailing m n) (ht : t ∈ types)
    (hkind : t.kind.isLiteral = true) : t = literal := by
  rcases h.others t ht with rfl | rfl | rfl | hother | hother
  · rfl
  · exact absurd (h.leading_kind ▸ hkind) nofun
  · exact absurd (h.trailing_kind ▸ hkind) nofun
  all_goals
    rw [TokenKind.isLiteral_eq_false (by simp [hother])] at hkind
    cases hkind

theorem eq_leading (h : Glues types literal leading trailing m n) (ht : t ∈ types)
    (hkind : t.kind.isLeading = true) : t = leading := by
  rcases h.others t ht with rfl | rfl | rfl | hother | hother
  · exact absurd (h.literal_kind ▸ hkind) nofun
  · rfl
  · exact absurd (h.trailing_kind ▸ hkind) nofun
  all_goals
    generalize t.kind = kind at hkind hother
    cases kind <;> first | cases hother; done | cases hkind

theorem eq_trailing (h : Glues types literal leading trailing m n) (ht : t ∈ types)
    (hkind : t.kind.isTrailing = true) : t = trailing := by
  rcases h.others t ht with rfl | rfl | rfl | hother | hother
  · exact absurd (h.literal_kind ▸ hkind) nofun
  · exact absurd (h.leading_kind ▸ hkind) nofun
  · rfl
  all_goals
    generalize t.kind = kind at hkind hother
    cases kind <;> first | cases hother; done | cases hkind

theorem isSeparator_eq_false (h : Glues types literal leading trailing m n) (ht : t ∈ types) :
    t.kind.isSeparator = false := by
  rcases h.others t ht with rfl | rfl | rfl | hother | hother
  · rw [h.literal_kind]; rfl
  · rw [h.leading_kind]; rfl
  · rw [h.trailing_kind]; rfl
  all_goals
    generalize t.kind = kind at hother
    cases kind <;> first | rfl | exact absurd hother nofun

section

variable (h : Glues types literal leading trailing m n) (hlx : lx.Knows types)

include h hlx

theorem literal_eq : lx.literal = some literal := by
  obtain ⟨t, ht⟩ :=
    Option.isSome_iff_exists.mp (hlx.literal literal h.literal_mem (by rw [h.literal_kind]; rfl))
  obtain ⟨hmem, hkind⟩ := hlx.sorts.literal t ht
  rw [ht, h.eq_literal hmem hkind]

theorem split_eq (hne : text ≠ []) : lx.splitter.split text = [.plain text] := by
  refine Splitter.split_of_uncut hne fun sep hsep => ?_
  obtain ⟨hmem, hkind⟩ := hlx.sorts.separators sep hsep
  exact absurd ((h.isSeparator_eq_false hmem).symm.trans hkind) nofun

/-- What is no literal is looked through for the leading marker, then for the trailing one. -/
theorem classifySpan_eq (htext : isLiteralText text = false)
    (within : List Char → Position → Except UnknownSpan (List Token)) :
    lx.classifySpan within text before =
      match leading.kind.remainingRight? text with
      | some rest =>
        (within rest (before.advanceOver lx.tabSize (text.take (text.length - rest.length)))).map
          (lx.token (text.take (text.length - rest.length)) [leading] before :: ·)
      | none =>
        match trailing.kind.remainingLeft? text with
        | some rest => (within rest before).map
          (· ++ [lx.token (text.drop rest.length) [trailing] (before.advanceOver lx.tabSize rest)])
        | none => lx.asPlain text before := by
  have hleading : (lx.leading.findSome? fun t => (t.kind.remainingRight? text).map (t, ·)) =
      (leading.kind.remainingRight? text).map (leading, ·) :=
    findSome?_of_forall_eq (fun t ht => h.eq_leading (hlx.sorts.leading t ht).1
      (hlx.sorts.leading t ht).2) (hlx.leading leading h.leading_mem (by rw [h.leading_kind]; rfl))
  have htrailing : (lx.trailing.findSome? fun t => (t.kind.remainingLeft? text).map (t, ·)) =
      (trailing.kind.remainingLeft? text).map (trailing, ·) :=
    findSome?_of_forall_eq (fun t ht =>
      h.eq_trailing (hlx.sorts.trailing t ht).1 (hlx.sorts.trailing t ht).2)
      (hlx.trailing trailing h.trailing_mem (by rw [h.trailing_kind]; rfl))
  rw [classifySpan, h.literal_eq hlx, htext, Option.filter_some, if_neg Bool.false_ne_true,
    hleading, htrailing]
  cases leading.kind.remainingRight? text with
  | some rest => rfl
  | none =>
    cases trailing.kind.remainingLeft? text with
    | some rest => rfl
    | none => rfl

/-- The literal that is left when a marker was taken off. -/
theorem classifyText_literal (hne : text ≠ []) (htext : isLiteralText text = true) (fuel : Nat) :
    lx.classifyText (fuel + 1) text before = .ok [lx.token text [literal] before] := by
  rw [classifyText_of_split (h.split_eq hlx hne), classifySpan, h.literal_eq hlx,
    Option.filter_some, if_pos htext]

section

variable (hm : m.toList ≠ []) (hn : n.toList ≠ []) (hfront : Quoteless m.toList)
  (hback : Quoteless n.toList)

include hm hn hfront hback

/-- A marker in front of a literal is taken off if there is no white space in the literal. -/
theorem classify_right (htext : isLiteralText text = true) (before : Position) :
    lx.classify (m.toList ++ text) before =
      if Spaceless text then .ok [lx.token m.toList [leading] before,
        lx.token text [literal] (before.advanceOver lx.tabSize m.toList)]
      else lx.asPlain (m.toList ++ text) before := by
  have hne := ne_nil_of_isLiteralText htext
  have hglued := isLiteralText_append_left hm hfront text
  rw [classify, classifyText_of_split (h.split_eq hlx (List.append_ne_nil_of_left_ne_nil hm _)),
    h.classifySpan_eq hlx hglued, h.leading_kind, h.trailing_kind,
    TokenKind.remainingRight?_append hne]
  by_cases hspace : Spaceless text
  · obtain ⟨fuel, hfuel⟩ : ∃ fuel, reserve + (m.toList ++ text).length = fuel + 1 :=
      Nat.exists_eq_add_one_of_ne_zero
        (Nat.ne_of_gt (Nat.lt_of_lt_of_le (by decide) (Nat.le_add_right _ _)))
    have hlength : (m.toList ++ text).length - text.length = m.toList.length := by
      rw [List.length_append, Nat.add_sub_cancel]
    rw [if_pos hspace, if_pos hspace, hfuel]
    simp only [hlength, List.take_left, h.classifyText_literal hlx hne htext]
    rfl
  · rw [if_neg hspace, if_neg hspace, TokenKind.remainingLeft?_eq_none hn hback htext]

/-- A marker behind a literal is taken off if there is no white space in the literal. -/
theorem classify_left (htext : isLiteralText text = true) (before : Position) :
    lx.classify (text ++ n.toList) before =
      if Spaceless text then .ok [lx.token text [literal] before,
        lx.token n.toList [trailing] (before.advanceOver lx.tabSize text)]
      else lx.asPlain (text ++ n.toList) before := by
  have hne := ne_nil_of_isLiteralText htext
  have hglued := isLiteralText_append_right hn hback text
  rw [classify, classifyText_of_split (h.split_eq hlx (List.append_ne_nil_of_left_ne_nil hne _)),
    h.classifySpan_eq hlx hglued, h.leading_kind, h.trailing_kind,
    TokenKind.remainingRight?_eq_none hm hfront htext, TokenKind.remainingLeft?_append hne]
  by_cases hspace : Spaceless text
  · obtain ⟨fuel, hfuel⟩ : ∃ fuel, reserve + (text ++ n.toList).length = fuel + 1 :=
      Nat.exists_eq_add_one_of_ne_zero
        (Nat.ne_of_gt (Nat.lt_of_lt_of_le (by decide) (Nat.le_add_right _ _)))
    rw [if_pos hspace, if_pos hspace, hfuel]
    simp only [List.drop_left, h.classifyText_literal hlx hne htext]
    rfl
  · rw [if_neg hspace, if_neg hspace]

end

end

end Glues

theorem mapError_asPlain_ne (text : List Char) (before : Position) (t u : Token) :
    (lx.asPlain text before).mapError (·.toParseError source) ≠ .ok [t, u] := by
  rw [asPlain]
  split <;> rintro h
  · cases h
  · cases Except.ok.inj h

section

variable (hlx : lx.Knows types) (htypes : Glues types literal leading trailing m n)
  (hcomment : ∀ c, lx.startsComment c = false) (hm : m.toList ≠ []) (hn : n.toList ≠ [])
  (hfront : ∀ c ∈ m.toList, Text.isBlank c = false ∧ isQuote c = false)
  (hback : ∀ c ∈ n.toList, Text.isBlank c = false ∧ isQuote c = false) (hq : isQuote q = true)
  (htext : OneLiteral q text)

include hlx htypes hcomment hm hn hfront hback hq htext

theorem tokenizeFrom_right (source : Option String) : lx.tokenizeFrom (m.toList ++ text) source =
    if Spaceless text then .ok [lx.token m.toList [leading] .beforeText,
      lx.token text [literal] (Position.beforeText.advanceOver lx.tabSize m.toList)]
    else (lx.asPlain (m.toList ++ text) .beforeText).mapError (·.toParseError source) := by
  have hliteral : lx.literal.isSome = true := by rw [htypes.literal_eq hlx]; rfl
  obtain ⟨inner, rfl, hinner, hlast⟩ := htext.exists_inner hq
  have hchunk := (lx.ready_stream (m.toList ++ q :: (inner ++ [q])) source).hands_glued_right
    hliteral hcomment hq hinner hlast hfront hm
  rw [tokenizeFrom_of_chunk hchunk, htypes.classify_right hlx hm hn (fun c hc => (hfront c hc).2)
    (fun c hc => (hback c hc).2) (by simp [isLiteralText, hq])]
  split <;> rfl

theorem tokenizeFrom_left (source : Option String) : lx.tokenizeFrom (text ++ n.toList) source =
    if Spaceless text then .ok [lx.token text [literal] .beforeText,
      lx.token n.toList [trailing] (Position.beforeText.advanceOver lx.tabSize text)]
    else (lx.asPlain (text ++ n.toList) .beforeText).mapError (·.toParseError source) := by
  have hliteral : lx.literal.isSome = true := by rw [htypes.literal_eq hlx]; rfl
  obtain ⟨inner, rfl, hinner, hlast⟩ := htext.exists_inner hq
  have hchunk := (lx.ready_stream (q :: (inner ++ [q]) ++ n.toList) source).hands_glued_left
    hliteral hcomment hq hinner hlast hback
  rw [tokenizeFrom_of_chunk hchunk, htypes.classify_left hlx hm hn (fun c hc => (hfront c hc).2)
    (fun c hc => (hback c hc).2) (by simp [isLiteralText, hq])]
  split <;> rfl

end

/-- A marker next to a literal is a token of its own, as the literal is, if there is no white
space in the literal, be it in front of the literal or behind it.  Otherwise both are looked up
as one keyword or word. -/
theorem tokenizeFrom_glued_iff (htypes : Glues types literal leading trailing m n) (hm : m ≠ "")
    (hn : n ≠ "") (hfront : ∀ c ∈ m.toList, Text.isBlank c = false ∧ isQuote c = false)
    (hback : ∀ c ∈ n.toList, Text.isBlank c = false ∧ isQuote c = false) (hq : isQuote q = true)
    (htext : OneLiteral q text) (tabSize : UInt64) (source : Option String) :
    let lx := (ofTypes types).setTabSize tabSize
    (lx.tokenizeFrom (m.toList ++ text) source =
        .ok [lx.token m.toList [leading] .beforeText,
          lx.token text [literal] (Position.beforeText.advanceOver lx.tabSize m.toList)] ↔
      Spaceless text) ∧
    (lx.tokenizeFrom (text ++ n.toList) source =
        .ok [lx.token text [literal] .beforeText,
          lx.token n.toList [trailing] (Position.beforeText.advanceOver lx.tabSize text)] ↔
      Spaceless text) ∧
    (¬Spaceless text →
      lx.tokenizeFrom (m.toList ++ text) source =
        (lx.asPlain (m.toList ++ text) .beforeText).mapError (·.toParseError source) ∧
      lx.tokenizeFrom (text ++ n.toList) source =
        (lx.asPlain (text ++ n.toList) .beforeText).mapError (·.toParseError source)) := by
  intro lx
  have hlx : lx.Knows types := (knows_ofTypes types).setTabSize tabSize
  have hcomment : ∀ c, lx.startsComment c = false := startsComment_ofTypes types
  have hm' : m.toList ≠ [] := fun h => hm (String.toList_eq_nil_iff.mp h)
  have hn' : n.toList ≠ [] := fun h => hn (String.toList_eq_nil_iff.mp h)
  have hright := tokenizeFrom_right hlx htypes hcomment hm' hn' hfront hback hq htext source
  have hleft := tokenizeFrom_left hlx htypes hcomment hm' hn' hfront hback hq htext source
  by_cases hspace : Spaceless text
  · rw [if_pos hspace] at hright hleft
    exact ⟨iff_of_true hright hspace, iff_of_true hleft hspace, fun hnot => absurd hspace hnot⟩
  · rw [if_neg hspace] at hright hleft
    refine ⟨iff_of_false ?_ hspace, iff_of_false ?_ hspace, fun _ => ⟨hright, hleft⟩⟩
    · rw [hright]
      exact mapError_asPlain_ne _ _ _ _
    · rw [hleft]
      exact mapError_asPlain_ne _ _ _ _

end Lexer

namespace Sample

def dollarTypes : List TokenType :=
  [⟨1, .literal⟩, ⟨2, .leading "$"⟩, ⟨3, .trailing "++"⟩, ⟨4, .keyword "x" true⟩]

theorem glues_dollarTypes :
    Lexer.Glues dollarTypes ⟨1, .literal⟩ ⟨2, .leading "$"⟩ ⟨3, .trailing "++"⟩ "$" "++" where
  literal_mem := by simp [dollarTypes]
  leading_mem := by simp [dollarTypes]
  trailing_mem := by simp [dollarTypes]
  literal_kind := rfl
  leading_kind := rfl
  trailing_kind := rfl
  others := by
    intro t ht
    simp only [dollarTypes, List.mem_cons, List.not_mem_nil, or_false] at ht
    rcases ht with rfl | rfl | rfl | rfl <;> simp [TokenKind.isKeyword]

theorem oneLiteral_escaped : OneLiteral '\x27' "'a\\'\"'".toList := by
  show OneLiteral '\x27' ('\x27' :: ("a\\'\"".toList ++ ['\x27']))
  exact (oneLiteral_iff rfl).mpr
    ⟨.char (by decide) (fun h => absurd h (by decide)) <| .escaped rfl <|
      .char (by decide) (fun h => absurd h (by decide)) .nil, by decide⟩

/-- An escaped quote, and one of the other kind. -/
theorem tokenizeFrom_glued_iff_dollarTypes :
    Lexer.Glues dollarTypes ⟨1, .literal⟩ ⟨2, .leading "$"⟩ ⟨3, .trailing "++"⟩ "$" "++" ∧
    OneLiteral '\x27' "'a\\'\"'".toList ∧
    (Lexer.ofTypes dollarTypes).tokenizeFrom ("$".toList ++ "'a\\'\"'".toList) none =
      .ok [⟨"$", [⟨2, .leading "$"⟩], ⟨1, 1⟩, ⟨1, 1⟩⟩,
        ⟨"'a\\'\"'", [⟨1, .literal⟩], ⟨1, 2⟩, ⟨1, 7⟩⟩] := by
  refine ⟨glues_dollarTypes, oneLiteral_escaped, ?_⟩
  have hglued := (Lexer.tokenizeFrom_glued_iff glues_dollarTypes (by decide) (by decide)
    (by simp [Text.isBlank, isQuote]) (by simp [Text.isBlank, isQuote]) rfl oneLiteral_escaped 1
    none).1.mpr (by decide)
  exact hglued

theorem oneLiteral_blank : OneLiteral '\x27' "'a b'".toList := by
  show OneLiteral '\x27' ('\x27' :: ("a b".toList ++ ['\x27']))
  exact (oneLiteral_iff rfl).mpr ⟨.char (by decide) (fun h => absurd h (by decide)) <|
      .char (by decide) (fun h => absurd h (by decide)) <|
      .char (by decide) (fun h => absurd h (by decide)) .nil, by decide⟩

/-- A blank between the quotes keeps a marker from being found. -/
theorem glued_by_blank : ¬∀ (types : List TokenType) (literal leading trailing : TokenType)
    (m n : String) (q : Char) (text : List Char), Lexer.Glues types literal leading trailing m n →
    m ≠ "" → n ≠ "" → m ≠ n →
      (∀ c ∈ m.toList ++ n.toList, Text.isBlank c = false ∧ isQuote c = false ∧ c ≠ escapeChar) →
      isQuote q = true → OneLiteral q text →
      outline ParseError.text ((Lexer.ofTypes types).tokenizeFrom (m.toList ++ text) none) =
          .ok [(m, [leading]), (.ofList text, [literal])] ∧
        outline ParseError.text ((Lexer.ofTypes types).tokenizeFrom (text ++ n.toList) none) =
          .ok [(.ofList text, [literal]), (n, [trailing])] := by
  intro hall
  obtain ⟨hright, -⟩ := hall dollarTypes ⟨1, .literal⟩ ⟨2, .leading "$"⟩ ⟨3, .trailing "++"⟩ "$"
    "++" '\x27' "'a b'".toList glues_dollarTypes (by decide) (by decide) (by decide)
    (by simp [Text.isBlank, isQuote, escapeChar]) rfl oneLiteral_blank
  have hlost : (outline ParseError.text ((Lexer.ofTypes dollarTypes).tokenizeFrom
      ("$".toList ++ "'a b'".toList) none)).toOption.isSome = false := by decide +kernel
  rw [hright] at hlost
  exact absurd hlost (by decide)

end Sample

end GrammarGraph
