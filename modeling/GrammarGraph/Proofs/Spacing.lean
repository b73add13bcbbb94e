import GrammarGraph.Proofs.Words

/-!
# Words with any blanks between them

However many blanks stand between the words of a text, in front of them and behind them
(`Text.Spaced`), the stream skips them and hands out the words.  So where each word is one token
these are the tokens of the text (`Lexer.tokenizeFrom_spaced`).
-/

namespace GrammarGraph

/-- The text consists of the words, with blanks between any two of them and
perhaps around all of them. -/
inductive Text.Spaced : List (List Char) → List Char → Prop
  | nil : Spaced [] []
  | blank {words : List (List Char)} {text : List Char} {c : Char} : Text.isBlank c = true →
      Spaced words text → Spaced words (c :: text)
  | last {word : List Char} : Spaced [word] word
  | word {word : List Char} {words : List (List Char)} {text : List Char} {c : Char} :
      Text.isBlank c = true → Spaced words text → Spaced (word :: words) (word ++ c :: text)

theorem Text.Spaced.subset {words : List (List Char)} {word text : List Char}
    (h : Text.Spaced words text) (hword : word ∈ words) : word ⊆ text := by
  induction h with
  | nil => exact absurd hword List.not_mem_nil
  | blank _ _ ih => exact List.subset_cons_of_subset _ (ih hword)
  | last =>
    obtain rfl := List.mem_singleton.mp hword
    exact List.Subset.refl _
  | word _ _ ih =>
    rcases List.mem_cons.mp hword with rfl | hword
    · exact List.subset_append_left _ _
    · exact List.subset_append_of_subset_right _ (List.subset_cons_of_subset _ (ih hword))

namespace Stream

variable {lx : Lexer} {s : Stream} {source : Option String} {c : Char} {rest word text : List Char}
  {words : List (List Char)}

namespace Ready

/-- Between words a blank is skipped. -/
theorem exists_step_blank (h : Ready s source (c :: rest)) (hc : Text.isBlank c = true) (lx : Lexer)
    (seen : List Char) : ∃ t, s.step lx c seen = (none, t) ∧ Ready t source rest := by
  have hrest : (s.window.skip 1).rest = rest := by
    rw [Window.rest_skip, h.rest]
    rfl
  rcases h.mode with hmode | hmode
  · refine ⟨Stream.skip { s with mode := .blanks } 1, ?_,
      ⟨.inr rfl, h.collected, h.openQuote, hrest, h.size, h.source⟩⟩
    have hnext : s.nextMode lx c seen = (some .blanks, s) := by
      simp only [nextMode, hmode, h.openQuote, hc, Option.isNone_none, Bool.and_self, if_true]
    rw [Stream.step, hnext]
    simp only [enter, hmode]
    exact if_pos (List.isEmpty_iff.mpr h.collected)
  · refine ⟨s.skip 1, ?_, ⟨h.mode, h.collected, h.openQuote, hrest, h.size, h.source⟩⟩
    have hquote : isQuote c = false :=
      Bool.eq_false_iff.mpr fun hquote =>
        absurd (not_isBlank_of_isQuote hquote) (by rw [hc]; decide)
    have hnext : s.nextMode lx c seen = (none, s) := by
      simp only [nextMode, hmode, hquote, hc, h.openQuote, Bool.and_false, Bool.false_eq_true,
        if_false, Option.isNone_none, Bool.and_self, if_true]
    rw [Stream.step, hnext]
    simp only [consume, hmode, ne_eq, reduceCtorEq, not_false_eq_true, if_true]

/-- What is to come behind a blank is what is to come. -/
theorem exists_drain_blank (h : Ready s source (c :: rest)) (hc : Text.isBlank c = true)
    (lx : Lexer) :
    ∃ t, Ready t source rest ∧ ∀ fuel, (s.drain lx fuel).1 = (t.drain lx fuel).1 := by
  obtain ⟨seen, hseen, -⟩ := exists_lookahead h.rest h.size
  obtain ⟨t, hstep, ht⟩ := h.exists_step_blank hc lx (c :: seen)
  have hchunk : s.nextChunk lx = t.nextChunk lx := by
    rw [nextChunk, nextChunk, h.rest, ht.rest, List.length_cons, readChunk, hseen]
    simp only [hstep]
  refine ⟨t, ht, fun fuel => ?_⟩
  cases fuel with
  | zero => rfl
  | succ fuel => rw [Stream.drain, Stream.drain, hchunk]

/-- The tokens of a word come before those of the text behind it. -/
theorem exists_drain_word (hne : word ≠ []) (hplain : ∀ c ∈ word, lx.IsPlainChar c)
    (h : Ready s source (word ++ rest)) (hrest : ∀ c ∈ rest.head?, Text.isBlank c = true) :
    ∃ t before, Ready t source rest.tail ∧
      ∀ fuel,
      (s.drain lx (fuel + 1)).1 = ofChunk lx source ⟨word, before⟩ ++ (t.drain lx fuel).1 := by
  have hands := h.hands_plain hne hplain hrest _ (Nat.le_refl _)
  rw [← nextChunk] at hands
  rcases hnext : s.nextChunk lx with ⟨o, t⟩
  rw [hnext] at hands
  obtain ⟨before, rfl, ht⟩ := hands
  refine ⟨t, before, ht, fun fuel => ?_⟩
  rw [Stream.drain, hnext]
  simp only [ht.source]

/-- Where each word is one token, these are what is still to come. -/
theorem drain_spaced {R : Token → List Char → Prop}
    (hwords : ∀ word ∈ words, (word ≠ [] ∧ ∀ c ∈ word, lx.IsPlainChar c) ∧
      ∀ before, ∃ token, lx.classify word before = .ok [token] ∧ R token word)
    (htext : Text.Spaced words text) (h : Ready s source text) {fuel : Nat}
    (hfuel : text.length < fuel) :
    ∃ tokens : List Token, (s.drain lx fuel).1 = tokens.map .ok ∧ List.Forall₂ R tokens words := by
  induction htext generalizing s fuel with
  | nil => exact ⟨[], h.drain_nil lx fuel, .nil⟩
  | blank hc _ ih =>
    obtain ⟨t, ht, hdrain⟩ := h.exists_drain_blank hc lx
    rw [hdrain]
    exact ih hwords ht (Nat.lt_of_succ_lt hfuel)
  | @last word =>
    obtain ⟨⟨hne, hplain⟩, hclassify⟩ := hwords word List.mem_cons_self
    obtain ⟨fuel, rfl⟩ := Nat.exists_eq_add_one_of_ne_zero (Nat.ne_zero_of_lt hfuel)
    rw [← List.append_nil word] at h
    obtain ⟨t, before, ht, hdrain⟩ := h.exists_drain_word hne hplain nofun
    obtain ⟨token, htoken, hR⟩ := hclassify before
    refine ⟨[token], ?_, .cons hR .nil⟩
    rw [hdrain, ht.drain_nil, ofChunk, htoken]
    rfl
  | @word word words text c hc _ ih =>
    obtain ⟨⟨⟨hne, hplain⟩, hclassify⟩, hwords⟩ := List.forall_mem_cons.mp hwords
    obtain ⟨fuel, rfl⟩ := Nat.exists_eq_add_one_of_ne_zero (Nat.ne_zero_of_lt hfuel)
    obtain ⟨t, before, ht, hdrain⟩ := h.exists_drain_word hne hplain fun d hd =>
      Option.some.inj hd ▸ hc
    obtain ⟨token, htoken, hR⟩ := hclassify before
    have hlt : text.length < fuel := by
      rw [List.length_append, List.length_cons] at hfuel
      omega
    obtain ⟨tokens, htokens, hall⟩ := ih hwords ht hlt
    refine ⟨token :: tokens, ?_, .cons hR hall⟩
    rw [hdrain, htokens, ofChunk, htoken]
    rfl

end Ready

end Stream

/-- Where each word is a token these are the tokens of a text of the words. -/
theorem Lexer.tokenizeFrom_spaced {lx : Lexer} {words : List (List Char)} {text : List Char}
    {R : Token → List Char → Prop}
    (hwords : ∀ word ∈ words, (word ≠ [] ∧ ∀ c ∈ word, lx.IsPlainChar c) ∧
      ∀ before, ∃ token, lx.classify word before = .ok [token] ∧ R token word)
    (htext : Text.Spaced words text) (source : Option String) :
    ∃ tokens, lx.tokenizeFrom text source = .ok tokens ∧ List.Forall₂ R tokens words := by
  obtain ⟨tokens, hdrain, htokens⟩ :=
    (lx.ready_stream text source).drain_spaced hwords htext (Nat.lt_succ_self _)
  exact ⟨tokens, mapM_id_eq_ok.mpr hdrain, htokens⟩

end GrammarGraph
