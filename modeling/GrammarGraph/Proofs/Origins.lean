import GrammarGraph.Proofs.Placing
import GrammarGraph.Proofs.Scanning
import GrammarGraph.Proofs.Spans

/-!
# Where tokens come from

A token of a chunk is a separator, a literal, a marker or a text that keywords and words recognize,
in the chunk itself or in what is left of it where a marker was taken off (`Lexer.arises_classify`).
So what holds of the pieces of every chunk, whatever is taken off, holds of the tokens of a text
(`Stream.exists_chunk_of_mem_results`).
-/

namespace GrammarGraph

namespace Lexer

variable {lx : Lexer} {within : List Char → Position → Except UnknownSpan (List Token)}
  {text rest : List Char} {before : Position} {token : Token} {tokens : List Token}
  {types : List TokenType}

/-- The token is made from a piece of the text, or from what is left of a piece next to a marker. -/
inductive Arises (lx : Lexer) : List Char → Token → Prop
  | separator {text : List Char} {s : Span} {sep : TokenType} {before : Position} :
      s ∈ lx.splitter.split text → s.separator = some sep →
        Arises lx text (lx.token s.text [sep] before)
  | literal {text : List Char} {s : Span} {t : TokenType} {before : Position} :
      s ∈ lx.splitter.split text → s.separator = none → t ∈ lx.literal →
        isLiteralText s.text = true → Arises lx text (lx.token s.text [t] before)
  | leading {text marker : List Char} {t : TokenType} {before : Position} :
      t ∈ lx.leading → Arises lx text (lx.token marker [t] before)
  | behind {text rest : List Char} {s : Span} {t : TokenType} {token : Token} :
      s ∈ lx.splitter.split text → s.separator = none → t ∈ lx.leading →
        t.kind.remainingRight? s.text = some rest → Arises lx rest token → Arises lx text token
  | trailing {text marker : List Char} {t : TokenType} {before : Position} :
      t ∈ lx.trailing → Arises lx text (lx.token marker [t] before)
  | front {text rest : List Char} {s : Span} {t : TokenType} {token : Token} :
      s ∈ lx.splitter.split text → s.separator = none → t ∈ lx.trailing →
        t.kind.remainingLeft? s.text = some rest → Arises lx rest token → Arises lx text token
  | plain {text : List Char} {s : Span} {before : Position} :
      s ∈ lx.splitter.split text → s.separator = none →
      Arises lx text (lx.token s.text (lx.plainTypes s.text) before)

theorem arises_classifySpan (hwithin : ∀ text before tokens, within text before = .ok tokens →
      ∀ token ∈ tokens, lx.Arises text token) {s : Span} (hs : s ∈ lx.splitter.split text)
    (hplain : s.separator = none) (h : lx.classifySpan within s.text before = .ok tokens) :
    ∀ token ∈ tokens, lx.Arises text token := by
  unfold classifySpan at h
  split at h
  · next t ht =>
    obtain rfl := Except.ok.inj h
    obtain ⟨ht, hliteral⟩ := Option.filter_eq_some_iff.mp ht
    exact List.forall_mem_singleton.mpr (.literal hs hplain ht hliteral)
  · split at h
    · next t rest hfind =>
      obtain ⟨ht, hrest⟩ := exists_of_findSome? hfind
      obtain ⟨more, hmore, rfl⟩ := exists_of_map_eq_ok h
      refine List.forall_mem_cons.mpr ⟨.leading ht, fun token htoken => ?_⟩
      exact .behind hs hplain ht hrest (hwithin _ _ _ hmore token htoken)
    · split at h
      · next t rest hfind =>
        obtain ⟨ht, hrest⟩ := exists_of_findSome? hfind
        obtain ⟨more, hmore, rfl⟩ := exists_of_map_eq_ok h
        refine List.forall_mem_append.mpr
          ⟨fun token htoken => ?_, List.forall_mem_singleton.mpr (.trailing ht)⟩
        exact .front hs hplain ht hrest (hwithin _ _ _ hmore token htoken)
      · split at h
        · exact absurd h nofun
        · obtain rfl := Except.ok.inj h
          exact List.forall_mem_singleton.mpr (.plain hs hplain)

theorem arises_classifySpans (hwithin : ∀ text before tokens, within text before = .ok tokens →
      ∀ token ∈ tokens, lx.Arises text token) {spans : List Span}
    (hspans : spans ⊆ lx.splitter.split text)
    (h : lx.classifySpans within spans before = .ok tokens) :
    ∀ token ∈ tokens, lx.Arises text token := by
  induction spans generalizing before tokens with
  | nil =>
    obtain rfl := Except.ok.inj h
    exact nofun
  | cons s spans ih =>
    obtain ⟨hs, hrest⟩ := List.cons_subset.mp hspans
    rw [classifySpans] at h
    cases hsep : s.separator with
    | some sep =>
      rw [hsep] at h
      obtain ⟨front, back, hfront, hback, rfl⟩ := exists_of_append_eq_ok h
      obtain rfl := Except.ok.inj hfront
      exact List.forall_mem_append.mpr ⟨List.forall_mem_singleton.mpr (.separator hs hsep),
        ih hrest hback⟩
    | none =>
      rw [hsep] at h
      obtain ⟨front, back, hfront, hback, rfl⟩ := exists_of_append_eq_ok h
      exact List.forall_mem_append.mpr ⟨arises_classifySpan hwithin hs hsep hfront, ih hrest hback⟩

theorem arises_classifyText {fuel : Nat} (h : lx.classifyText fuel text before = .ok tokens) :
    ∀ token ∈ tokens, lx.Arises text token := by
  induction fuel generalizing text before tokens with
  | zero => exact Except.ok.inj h ▸ fun _ htoken => absurd htoken List.not_mem_nil
  | succ fuel ih => exact arises_classifySpans (fun _ _ _ => ih) (List.Subset.refl _) h

/-- Every token of a chunk arises from it. -/
theorem arises_classify (h : lx.classify text before = .ok tokens) :
    ∀ token ∈ tokens, lx.Arises text token :=
  arises_classifyText h

/-- What recognizes a text as a whole is a keyword or a word. -/
theorem Sorts.of_mem_plainTypes (h : lx.Sorts types) {t : TokenType} (ht : t ∈ lx.plainTypes text) :
    t.kind.isKeyword = true ∨ t.kind.isWord = true := by
  rcases List.mem_append.mp ht with hkeyword | hword
  · have hmem : t ∈ lx.keywords := by
      rcases Option.or_eq_some_iff.mp (Option.mem_toList.mp hkeyword) with hfind | ⟨-, hfind⟩
      · exact List.mem_of_find?_eq_some hfind
      · exact List.mem_of_find?_eq_some hfind
    rw [h.keywords] at hmem
    exact .inl (List.mem_filter.mp hmem).2
  · have hmem := (List.mem_filter.mp hword).1
    rw [h.words] at hmem
    exact .inr (List.mem_filter.mp hmem).2

end Lexer

namespace Stream

variable {lx : Lexer} {s : Stream} {token : Token}

theorem exists_chunk_of_mem_drain {fuel : Nat} (hs : s.Idle) (hfuel : s.window.rest.length < fuel)
    (hmem : .ok token ∈ (s.drain lx fuel).1) :
    ∃ chunk ∈ (s.scanAll lx).1, lx.Arises chunk token := by
  induction fuel generalizing s with
  | zero => exact absurd hfuel (Nat.not_lt_zero _)
  | succ fuel ih =>
    have hreads := readsChunk_nextChunk lx hs
    have hscan := scanAll_nextChunk lx hs
    rw [drain] at hmem
    rcases hnext : s.nextChunk lx with ⟨_ | chunk, t⟩ <;> rw [hnext] at hreads hscan hmem
    · exact absurd hmem List.not_mem_nil
    · rw [hscan]
      rcases List.mem_append.mp hmem with hmem | hmem
      · obtain ⟨tokens, hclassify, htoken⟩ := exists_classify_of_mem_ofChunk hmem
        exact ⟨chunk.text, List.mem_append_left _ List.mem_cons_self,
          Lexer.arises_classify hclassify token htoken⟩
      · obtain ⟨chunk', hchunk', harises⟩ := ih hreads.idle
          (Nat.lt_of_lt_of_le (hreads.rest_lt chunk rfl hs.collected) (Nat.le_of_lt_succ hfuel))
          hmem
        exact ⟨chunk', List.mem_append_right _ hchunk', harises⟩

/-- Every token of a text arises from one of its chunks. -/
theorem exists_chunk_of_mem_results (text : List Char) (source : Option String)
    (hmem : .ok token ∈ ((lx.stream text source).results lx).1) :
    ∃ chunk ∈ ((lx.stream text source).scanAll lx).1, lx.Arises chunk token := by
  rw [fst_results_of_pending_nil lx rfl] at hmem
  exact exists_chunk_of_mem_drain (idle_stream lx text source) (Nat.lt_succ_self _) hmem

end Stream

end GrammarGraph
