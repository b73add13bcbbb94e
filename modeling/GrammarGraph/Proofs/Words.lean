import GrammarGraph.Proofs.Quotes
import GrammarGraph.Proofs.Tokens
import Mathlib.Data.List.Nodup

/-!
# Words between blanks

A text may be written as words with a blank between any two of them.  The stream hands the words out
as its chunks (`Stream.Ready.drain`) if each is a literal or a text in which there is neither a
blank nor a quote nor the start of a comment.  Inside of a literal there may be anything.
-/

namespace GrammarGraph

namespace Lexer

/-- Whether a comment can start with the character. -/
def startsComment (lx : Lexer) (c : Char) : Bool :=
  lx.lineComment.any (·.head? == some c) || lx.blockComment.any (·.1.head? == some c)

/-- A character that neither ends a chunk nor opens a literal. -/
def IsPlainChar (lx : Lexer) (c : Char) : Prop :=
  Text.isBlank c = false ∧ isQuote c = false ∧ lx.startsComment c = false

/-- A text that is a chunk of its own between blanks. -/
inductive IsWord (lx : Lexer) : List Char → Prop
  | plain {word : List Char} : word ≠ [] → (∀ c ∈ word, lx.IsPlainChar c) → IsWord lx word
  | literal {q : Char} {body : List Char} : isQuote q = true → lx.startsComment q = false →
      Within q body → body.getLast? ≠ some escapeChar → IsWord lx (q :: (body ++ [q]))

theorem IsWord.ne_nil {lx : Lexer} {word : List Char} (h : lx.IsWord word) : word ≠ [] := by
  cases h with
  | plain hne => exact hne
  | literal => exact List.cons_ne_nil _ _

end Lexer

theorem getLast?_append_of_eq_some {c : Char} (front : List Char) {text : List Char}
    (h : text.getLast? = some c) : (front ++ text).getLast? = some c := by
  rw [List.getLast?_append, h]
  rfl

namespace Stream

variable {lx : Lexer} {s t : Stream} {source : Option String} {quote : Option Char} {c q : Char}
  {front rest seen body word : List Char} {P : Option Chunk × Stream → Prop}

/-- Reading the next chunk comes to something for which `P` holds. -/
def Hands (lx : Lexer) (s : Stream) (P : Option Chunk × Stream → Prop) : Prop :=
  ∀ fuel, s.window.rest.length ≤ fuel → P (s.readChunk lx fuel)

theorem Hands.step (h : Hands lx t P) (hseen : s.window.lookahead = c :: seen)
    (hstep : s.step lx c (c :: seen) = (none, t)) : Hands lx s P := by
  intro fuel hfuel
  have hrest : s.window.rest ≠ [] := rest_ne_nil (by rw [hseen]; exact List.cons_ne_nil _ _)
  have hlt := (advances_step lx c (c :: seen) hrest).lt
  rw [hstep] at hlt
  obtain ⟨fuel, rfl⟩ :=
    Nat.exists_eq_add_one_of_ne_zero (Nat.ne_zero_of_lt (Nat.lt_of_lt_of_le hlt hfuel))
  simp only [readChunk, hseen, hstep]
  exact h fuel (Nat.le_of_lt_succ (Nat.lt_of_lt_of_le hlt hfuel))

/-- Between two words: nothing is collected, and no literal is open. -/
structure Ready (s : Stream) (source : Option String) (rest : List Char) : Prop where
  mode : s.mode = .normal ∨ s.mode = .blanks
  collected : s.collected = []
  openQuote : s.openQuote = none
  rest : s.window.rest = rest
  size : 2 ≤ s.window.size
  source : s.source = source

/-- In a word, of which the front is collected. -/
structure Midway (s : Stream) (source : Option String) (front : List Char) (quote : Option Char)
    (rest : List Char) : Prop where
  mode : s.mode = .normal
  collected : s.collected.reverse = front
  openQuote : s.openQuote = quote
  rest : s.window.rest = rest
  size : 2 ≤ s.window.size
  source : s.source = source

theorem exists_lookahead (hrest : s.window.rest = c :: rest) (hsize : 2 ≤ s.window.size) :
    ∃ seen, s.window.lookahead = c :: seen ∧ seen.head? = rest.head? := by
  obtain ⟨n, hn⟩ := Nat.exists_eq_add_of_le hsize
  refine ⟨rest.take (1 + n), ?_, ?_⟩
  · rw [Window.lookahead, hrest, hn, Nat.add_comm 2 n, Nat.add_comm 1 n]
    rfl
  · rw [List.head?_take, if_neg (by omega)]

theorem not_startsWith {marker : List Char} (h : (marker.head? == some c) = false) :
    startsWith (c :: seen) marker = false := by
  cases marker with
  | nil => rfl
  | cons d ds =>
    have hne : (d == c) = false := h
    rw [startsWith, List.isPrefixOf, hne]
    rfl

theorem commentMode?_eq_none (h : lx.startsComment c = false) (s : Stream) (seen : List Char) :
    s.commentMode? lx (c :: seen) = none := by
  obtain ⟨hline, hblock⟩ := Bool.or_eq_false_iff.mp h
  have hline' : lx.lineComment.any (startsWith (c :: seen) ·) = false := by
    cases hmarker : lx.lineComment with
    | none => rfl
    | some marker =>
      rw [hmarker] at hline
      exact not_startsWith hline
  rw [commentMode?, hline', if_neg Bool.false_ne_true]
  cases hmarker : lx.blockComment with
  | none => exact ite_self none
  | some markers =>
    obtain ⟨start, stop⟩ := markers
    rw [hmarker] at hblock
    have hseen : startsWith (c :: seen) start = false := not_startsWith hblock
    simp only [Option.any_some, hseen, Bool.false_eq_true, if_false, ite_self]

theorem commentMode?_of_open (h : s.openQuote = some q) (seen : List Char) :
    s.commentMode? lx seen = none := by
  rw [commentMode?, h]
  rfl

namespace Midway

theorem collect (h : Midway s source front quote (c :: rest)) :
    Midway s.collect source (front ++ [c]) quote rest := by
  simp only [Stream.collect, Window.next?, h.rest]
  refine ⟨h.mode, ?_, h.openQuote, rfl, h.size, h.source⟩
  rw [List.reverse_cons, h.collected]

theorem setQuote (h : Midway s source front quote rest) (quote' : Option Char) :
    Midway { s with openQuote := quote' } source front quote' rest :=
  ⟨h.mode, h.collected, rfl, h.rest, h.size, h.source⟩

theorem consume_plain (hlx : lx.literal.isSome = true) (h : Midway s source front none rest)
    (c : Char) (seen : List Char) : s.consume lx c seen =
      ({ s with openQuote := if isQuote c then some c else none } : Stream).collect := by
  rw [consume, if_neg (not_not.mpr h.mode), if_neg (by rw [← Option.not_isSome, hlx]; decide),
    h.openQuote]

theorem consume_open (hlx : lx.literal.isSome = true) (h : Midway s source front (some q) rest)
    (c : Char) (seen : List Char) : s.consume lx c seen =
      if c = escapeChar && (seen[1]?).any isQuote then s.collect.collect
      else ({ s with openQuote := if c = q then none else some q } : Stream).collect := by
  rw [consume, if_neg (not_not.mpr h.mode), if_neg (by rw [← Option.not_isSome, hlx]; decide),
    h.openQuote]

/-- What is no quote opens nothing, be there literals or not. -/
theorem consume_unquoted (h : Midway s source front none rest) (hc : isQuote c = false)
    (seen : List Char) : s.consume lx c seen = s.collect := by
  by_cases hlx : lx.literal.isSome = true
  · rw [consume_plain hlx h, hc, if_neg Bool.false_ne_true, ← h.openQuote]
  · rw [consume, if_neg (not_not.mpr h.mode),
      if_pos (by rw [← Option.not_isSome, Bool.eq_false_iff.mpr hlx]; rfl)]

/-- A plain character is collected. -/
theorem hands_plain (h : Midway s source front none (c :: rest)) (hc : lx.IsPlainChar c)
    (hnext : ∀ t, Midway t source (front ++ [c]) none rest → Hands lx t P) : Hands lx s P := by
  obtain ⟨hblank, hquote, hcomment⟩ := hc
  obtain ⟨seen, hseen, -⟩ := exists_lookahead h.rest h.size
  have hstep : s.step lx c (c :: seen) = (none, s.consume lx c (c :: seen)) := by
    simp only [Stream.step, nextMode, h.mode, hblank, Bool.and_false, Bool.false_eq_true, if_false,
      commentMode?_eq_none hcomment]
  refine .step (hnext _ ?_) hseen hstep
  rw [h.consume_unquoted hquote]
  exact h.collect

/-- With a literal open the next character is collected, whatever it is. -/
theorem hands_open (h : Midway s source front (some q) (c :: rest))
    (hnext : ∀ seen, seen.head? = rest.head? → Hands lx (s.consume lx c (c :: seen)) P) :
    Hands lx s P := by
  obtain ⟨seen, hseen, hhead⟩ := exists_lookahead h.rest h.size
  refine .step (hnext seen hhead) hseen ?_
  simp only [Stream.step, nextMode, h.mode, h.openQuote, Option.isNone_some, Bool.false_and,
    Bool.false_eq_true, if_false, commentMode?_of_open h.openQuote]

/-- What a literal holds is collected, and the quote that closes it. -/
theorem hands_literal (hlx : lx.literal.isSome = true) (hq : isQuote q = true)
    (hbody : Within q body) (hlast : body.getLast? ≠ some escapeChar)
    (h : Midway s source front (some q) (body ++ q :: rest))
    (hnext : ∀ t, Midway t source (front ++ body ++ [q]) none rest → Hands lx t P) :
    Hands lx s P := by
  induction hbody generalizing s front with
  | nil =>
    refine h.hands_open fun seen _ => hnext _ ?_
    have hpair : ¬(q = escapeChar && ((q :: seen)[1]?).any isQuote) = true := by
      rw [decide_eq_false (ne_escapeChar_of_isQuote hq)]
      exact Bool.false_ne_true
    rw [consume_open hlx h, if_neg hpair, if_pos rfl, List.append_nil]
    exact (h.setQuote none).collect
  | @escaped d body hd _ ih =>
    refine h.hands_open fun seen hhead => ?_
    have hpair : (escapeChar = escapeChar && ((escapeChar :: seen)[1]?).any isQuote) = true := by
      rw [List.getElem?_cons_succ, ← List.head?_eq_getElem?, hhead]
      exact hd
    rw [consume_open hlx h, if_pos hpair]
    refine ih (fun h => hlast (getLast?_append_of_eq_some [escapeChar, d] h)) h.collect.collect
      fun t ht => hnext t ?_
    simpa using ht
  | @char c body hc hescape _ ih =>
    refine h.hands_open fun seen hhead => ?_
    have hpair : ¬(c = escapeChar && ((c :: seen)[1]?).any isQuote) = true := by
      rw [List.getElem?_cons_succ, ← List.head?_eq_getElem?, hhead, Bool.and_eq_true,
        decide_eq_true_eq]
      rintro ⟨rfl, hany⟩
      cases body with
      | nil => exact hlast rfl
      | cons d ds =>
        have hnot : isQuote d = false := hescape rfl d rfl
        exact absurd (hnot.symm.trans hany) nofun
    rw [consume_open hlx h, if_neg hpair, if_neg hc]
    refine ih (fun h => hlast (getLast?_append_of_eq_some [c] h)) (h.setQuote (some q)).collect
      fun t ht => hnext t ?_
    simpa using ht

/-- Plain characters are collected. -/
theorem hands_word (hword : ∀ c ∈ word, lx.IsPlainChar c)
    (h : Midway s source front none (word ++ rest))
    (hnext : ∀ t, Midway t source (front ++ word) none rest → Hands lx t P) : Hands lx s P := by
  induction word generalizing s front with
  | nil =>
    rw [List.append_nil] at hnext
    exact hnext s h
  | cons c cs ih =>
    obtain ⟨hc, hcs⟩ := List.forall_mem_cons.mp hword
    refine h.hands_plain hc fun t ht => ih hcs ht fun t' ht' => hnext t' ?_
    simpa using ht'

/-- What was collected is handed out. -/
theorem flush (h : Midway s source front none rest) (hne : front ≠ []) {mode : Mode}
    (hmode : mode = .normal ∨ mode = .blanks) :
    ({ s with mode } : Stream).flush = (some ⟨front, s.chunkBefore⟩,
      { s with mode, collected := [] }) ∧ Ready { s with mode, collected := [] } source rest := by
  refine ⟨?_, hmode, rfl, h.openQuote, h.rest, h.size, h.source⟩
  have hcollected : ¬s.collected.isEmpty = true := by
    rw [List.isEmpty_iff]
    rintro hnil
    exact hne (h.collected.symm.trans (by rw [hnil]; rfl))
  rw [Stream.flush, if_neg hcollected, h.collected]

/-- The end of the input, or a blank, ends the word. -/
theorem hands_chunk (h : Midway s source front none rest) (hne : front ≠ [])
    (hrest : ∀ c ∈ rest.head?, Text.isBlank c = true) :
    Hands lx s fun (o, t) => ∃ before, o = some ⟨front, before⟩ ∧ Ready t source rest.tail := by
  intro fuel hfuel
  cases rest with
  | nil =>
    obtain ⟨hflush, hready⟩ := h.flush hne (.inl h.mode)
    have hread :
        s.readChunk lx fuel = (some ⟨front, s.chunkBefore⟩, { s with collected := [] }) := by
      have hseen : s.window.lookahead = [] := by rw [Window.lookahead, h.rest, List.take_nil]
      rw [← hflush]
      cases fuel with
      | zero => rfl
      | succ fuel => rw [readChunk, hseen]
    rw [hread]
    exact ⟨_, rfl, hready⟩
  | cons c rest =>
    have hskip : Midway (s.skip 1) source front none rest :=
      ⟨h.mode, h.collected, h.openQuote, by rw [Stream.skip, Window.rest_skip, h.rest]; rfl, h.size,
        h.source⟩
    obtain ⟨hflush, hready⟩ := hskip.flush hne (.inr rfl)
    obtain ⟨seen, hseen, -⟩ := exists_lookahead h.rest h.size
    obtain ⟨fuel, rfl⟩ : ∃ n, fuel = n + 1 := by
      rw [h.rest, List.length_cons] at hfuel
      exact Nat.exists_eq_add_one_of_ne_zero (Nat.ne_zero_of_lt hfuel)
    have hnext : s.nextMode lx c (c :: seen) = (some .blanks, s) := by
      simp only [nextMode, h.mode, h.openQuote, Option.isNone_none, hrest c rfl, Bool.and_self,
        if_true]
    have hstep : s.step lx c (c :: seen) = ({ s.skip 1 with mode := .blanks } : Stream).flush := by
      rw [Stream.step, hnext]
      simp only [enter, h.mode]
      rfl
    simp only [readChunk, hseen, hstep, hflush]
    exact ⟨_, rfl, hready⟩

end Midway

namespace Ready

/-- The first character of a word is collected. -/
theorem hands_start (hlx : isQuote c = true → lx.literal.isSome = true)
    (h : Ready s source (c :: rest)) (hblank : Text.isBlank c = false)
    (hcomment : lx.startsComment c = false)
    (hnext : ∀ t, Midway t source [c] (if isQuote c then some c else none) rest → Hands lx t P) :
    Hands lx s P := by
  obtain ⟨seen, hseen, -⟩ := exists_lookahead h.rest h.size
  have hmidway : Midway { s with mode := .normal } source [] none (c :: rest) :=
    ⟨rfl, by rw [h.collected]; rfl, h.openQuote, h.rest, h.size, h.source⟩
  have hconsume : ({ s with mode := .normal } : Stream).consume lx c (c :: seen) =
      ({ s with
        mode := .normal
        openQuote := if isQuote c then some c else none } : Stream).collect := by
    by_cases hc : isQuote c = true
    · exact hmidway.consume_plain (hlx hc) c _
    · rw [hmidway.consume_unquoted (Bool.not_eq_true _ ▸ hc), if_neg hc, ← h.openQuote]
  refine .step (hnext _ (hmidway.setQuote (if isQuote c then some c else none)).collect) hseen ?_
  have hopen := h.openQuote
  obtain ⟨window, mode, collected, before, openQuote, pending, _⟩ := s
  obtain rfl : openQuote = none := hopen
  obtain rfl | rfl : mode = .normal ∨ mode = .blanks := h.mode
  · simp only [Stream.step, nextMode, hblank, Bool.and_false, Bool.false_eq_true, if_false,
      commentMode?_eq_none hcomment, hconsume]
  · simp only [Stream.step, nextMode, hblank, Bool.false_and, Bool.false_eq_true, if_false,
      commentMode?_eq_none hcomment, Option.none_or]
    cases hc : isQuote c with
    | true => rw [hlx hc]; rfl
    | false => rw [Bool.and_false]; rfl

/-- A text without blanks, quotes and the start of a comment is the next chunk,
be there literals or not. -/
theorem hands_plain (hne : word ≠ []) (hplain : ∀ c ∈ word, lx.IsPlainChar c)
    (h : Ready s source (word ++ rest)) (hrest : ∀ c ∈ rest.head?, Text.isBlank c = true) :
    Hands lx s fun (o, t) => ∃ before, o = some ⟨word, before⟩ ∧ Ready t source rest.tail := by
  obtain ⟨c, cs, rfl⟩ := List.exists_cons_of_ne_nil hne
  obtain ⟨⟨hblank, hquote, hcomment⟩, hcs⟩ := List.forall_mem_cons.mp hplain
  refine h.hands_start (fun hc => absurd (hquote.symm.trans hc) nofun) hblank hcomment fun t ht =>
    ?_
  rw [hquote] at ht
  exact ht.hands_word hcs fun t' ht' => ht'.hands_chunk (List.cons_ne_nil c cs) hrest

/-- The next word is the next chunk. -/
theorem hands_chunk (hlx : lx.literal.isSome = true) (hword : lx.IsWord word)
    (h : Ready s source (word ++ rest)) (hrest : ∀ c ∈ rest.head?, Text.isBlank c = true) :
    Hands lx s fun (o, t) => ∃ before, o = some ⟨word, before⟩ ∧ Ready t source rest.tail := by
  cases hword with
  | plain hne hplain => exact h.hands_plain hne hplain hrest
  | @literal q body hq hcomment hbody hlast =>
    refine h.hands_start (fun _ => hlx) (not_isBlank_of_isQuote hq) hcomment fun t ht => ?_
    rw [if_pos hq] at ht
    have ht : Midway t source [q] (some q) (body ++ q :: rest) := by rwa [List.append_cons]
    exact ht.hands_literal hlx hq hbody hlast fun t' ht' =>
      ht'.hands_chunk (List.cons_ne_nil q _) hrest

/-- At the end of the input there is nothing to come. -/
theorem drain_nil (h : Ready s source []) (lx : Lexer) (fuel : Nat) : (s.drain lx fuel).1 = [] := by
  have hnone : s.nextChunk lx = (none, s) := by
    rw [nextChunk, h.rest]
    show s.flush = _
    rw [Stream.flush, h.collected]
    rfl
  cases fuel with
  | zero => rfl
  | succ fuel => rw [Stream.drain, hnone]

/-- Where each word is one token, these are what is still to come. -/
theorem drain {blank : Char} (hlx : lx.literal.isSome = true) (hblank : Text.isBlank blank = true)
    {words : List (List Char)} {R : Token → List Char → Prop} (hwords : ∀ word ∈ words,
      lx.IsWord word ∧ ∀ before, ∃ token, lx.classify word before = .ok [token] ∧ R token word)
    (h : Ready s source ([blank].intercalate words)) {fuel : Nat}
    (hfuel : s.window.rest.length < fuel) :
    ∃ tokens : List Token, (s.drain lx fuel).1 = tokens.map .ok ∧ List.Forall₂ R tokens words := by
  obtain ⟨fuel, rfl⟩ := Nat.exists_eq_add_one_of_ne_zero (Nat.ne_zero_of_lt hfuel)
  induction words generalizing s fuel with
  | nil => exact ⟨[], h.drain_nil lx _, .nil⟩
  | cons word words ih =>
    obtain ⟨⟨hword, hclassify⟩, hwords⟩ := List.forall_mem_cons.mp hwords
    obtain ⟨rest, hrest, hhead, htail⟩ :
        ∃ rest, [blank].intercalate (word :: words) = word ++ rest ∧
        (∀ c ∈ rest.head?, Text.isBlank c = true) ∧ rest.tail = [blank].intercalate words := by
      cases words with
      | nil => exact ⟨[], by simp, by simp, rfl⟩
      | cons w ws =>
        refine ⟨blank :: [blank].intercalate (w :: ws), by simp, fun c hc => ?_, rfl⟩
        obtain rfl := Option.some.inj hc
        exact hblank
    rw [hrest] at h
    have hlt : rest.tail.length < fuel := by
      have hpos := List.length_pos_iff.mpr hword.ne_nil
      rw [h.rest, List.length_append] at hfuel
      rw [List.length_tail]
      omega
    have hands := h.hands_chunk hlx hword hhead _ (Nat.le_refl _)
    rw [Stream.drain, nextChunk]
    generalize s.readChunk lx s.window.rest.length = read at hands
    obtain ⟨o, t⟩ := read
    obtain ⟨before, rfl, hready⟩ := hands
    rw [← hready.rest] at hlt
    rw [htail] at hready
    obtain ⟨token, htoken, hR⟩ := hclassify before
    obtain ⟨fuel, rfl⟩ := Nat.exists_eq_add_one_of_ne_zero (Nat.ne_zero_of_lt hlt)
    obtain ⟨tokens, hdrain, htokens⟩ := ih hwords hready _ hlt
    refine ⟨token :: tokens, ?_, .cons hR htokens⟩
    simp only [ofChunk, htoken, hdrain]
    rfl

end Ready

end Stream

/-- Before the first character a stream is ready. -/
theorem Lexer.ready_stream (lx : Lexer) (text : List Char) (source : Option String) :
    Stream.Ready (lx.stream text source) source text :=
  have hsize : 2 ≤ max lx.fillSize 1 :=
    Nat.le_trans (Nat.le_trans (Nat.le_trans (Nat.le_max_left _ _) (Nat.le_max_left _ _))
      (Nat.le_max_left _ _)) (Nat.le_max_left _ _)
  ⟨.inl rfl, rfl, rfl, rfl, hsize, rfl⟩

/-- Where each word is one token, these are the tokens of the words with a blank
between any two of them. -/
theorem Lexer.tokenizeFrom_words {lx : Lexer} {blank : Char} {words : List (List Char)}
    {R : Token → List Char → Prop} (hlx : lx.literal.isSome = true)
    (hblank : Text.isBlank blank = true) (hwords : ∀ word ∈ words, lx.IsWord word ∧ ∀ before,
      ∃ token, lx.classify word before = .ok [token] ∧ R token word) (source : Option String) :
    ∃ tokens, lx.tokenizeFrom ([blank].intercalate words) source = .ok tokens ∧
      List.Forall₂ R tokens words := by
  have hready := lx.ready_stream ([blank].intercalate words) source
  obtain ⟨tokens, hdrain, htokens⟩ := hready.drain hlx hblank hwords (Nat.lt_succ_self _)
  exact ⟨tokens, mapM_id_eq_ok.mpr hdrain, htokens⟩

/-- A text without blanks, quotes and the start of a comment is classified as one chunk. -/
theorem Lexer.tokenizeFrom_plain {lx : Lexer} {text : List Char} (hne : text ≠ [])
    (hplain : ∀ c ∈ text, lx.IsPlainChar c) {types : List TokenType}
    (hclassify : ∀ before, lx.classify text before = .ok [lx.token text types before])
    (source : Option String) :
    ∃ before, lx.tokenizeFrom text source = .ok [lx.token text types before] := by
  have hready : Stream.Ready (lx.stream text source) source (text ++ []) := by
    rw [List.append_nil]
    exact lx.ready_stream text source
  have hands := hready.hands_plain hne hplain nofun _ (Nat.le_refl _)
  have hdrain : ∃ before, ((lx.stream text source).drain lx (text.length + 1)).1 =
      [.ok (lx.token text types before)] := by
    rw [Stream.drain, Stream.nextChunk]
    generalize (lx.stream text source).readChunk lx (lx.stream text source).window.rest.length =
      read at hands
    obtain ⟨o, t⟩ := read
    obtain ⟨before, rfl, hready'⟩ := hands
    refine ⟨before, ?_⟩
    simp only [Stream.ofChunk, hclassify, hready'.drain_nil]
    rfl
  obtain ⟨before, hdrain⟩ := hdrain
  exact ⟨before, mapM_id_eq_ok.mpr hdrain⟩

/-! ## Words that are not split

Then a word is one token. -/

namespace Span

variable {spans : List Span} {before after marker body : List Char} {q : Char}

/-- Texts become one text. -/
theorem merge_of_plain (hne : spans ≠ []) (h : ∀ s ∈ spans, s.isSeparator = false) :
    merge spans = [plain (spans.flatMap Span.text)] := by
  induction spans with
  | nil => exact absurd rfl hne
  | cons s rest ih =>
    obtain ⟨hs, hrest⟩ := List.forall_mem_cons.mp h
    cases rest with
    | nil =>
      obtain ⟨text, separator⟩ := s
      obtain rfl : separator = none :=
        Option.isNone_iff_eq_none.mp (Option.isSome_eq_false_iff.mp hs)
      rw [List.flatMap_singleton]
      rfl
    | cons t ts =>
      rw [merge, ih (List.cons_ne_nil t ts) hrest, List.flatMap_cons (x := s)]
      simp only [hs]
      rfl

/-- A marker in a literal is neither its first nor its last character. -/
theorem exists_of_cut_literal {left right : List Char} (hq : isQuote q = true)
    (hmarker : Bare marker) (hne : marker ≠ [])
    (h : left ++ (marker ++ right) = q :: (body ++ [q])) :
    ∃ before after, left = q :: before ∧ right = after ++ [q] ∧
      body = before ++ (marker ++ after) := by
  have hnot : q ∉ marker := fun hmem => absurd (hq.symm.trans (hmarker q hmem).1) nofun
  cases left with
  | nil =>
    obtain ⟨c, cs, rfl⟩ := List.exists_cons_of_ne_nil hne
    obtain rfl : c = q := (List.cons.inj h).1
    exact absurd List.mem_cons_self hnot
  | cons c before =>
    have htail : before ++ (marker ++ right) = body ++ [q] := (List.cons.inj h).2
    rcases List.eq_nil_or_concat right with rfl | ⟨after, d, rfl⟩
    · have hend : marker.getLast? = some q := by
        have hlast := congrArg List.getLast? htail
        rw [List.append_nil, List.getLast?_append, List.getLast?_append] at hlast
        rwa [List.getLast?_eq_some_getLast hne] at hlast ⊢
      exact absurd (List.mem_of_getLast? hend) hnot
    · rw [List.concat_eq_append, ← List.append_assoc, ← List.append_assoc] at htail
      obtain ⟨rfl, hd⟩ := List.append_inj' htail rfl
      obtain rfl := (List.cons.inj hd).1
      exact ⟨before, after, by rw [(List.cons.inj h).1], List.concat_eq_append,
        List.append_assoc _ _ _⟩

/-- In a literal a marker is quoted, if those in front of the literal and behind it come in
pairs. -/
theorem quoted_of_within (hq : isQuote q = true) (hbody : Within q (before ++ (marker ++ after)))
    (hlast : (before ++ (marker ++ after)).getLast? ≠ some escapeChar) (hmarker : Bare marker)
    (hne : marker ≠ []) (left right : List Char) (hleft : unescapedCount q none left % 2 = 0)
    (hescape : left.getLast? ≠ some escapeChar) (hright : unescapedCount q (some q) right % 2 = 0) :
    quoted (left ++ q :: before) (after ++ q :: right) = true := by
  obtain ⟨hbefore, hbehind⟩ := hbody.of_append fun _ => hmarker.unquoted hne after
  have hend : marker.getLast? ≠ some escapeChar :=
    fun h => (hmarker _ (List.mem_of_getLast? h)).2 rfl
  have hafter := (hbehind.of_append fun h => absurd h hend).2
  have hlast' : after.getLast? ≠ some escapeChar := fun h =>
    hlast (getLast?_append_of_eq_some before (getLast?_append_of_eq_some marker h))
  have hodd : unescapedCount q none (left ++ q :: before) % 2 = 1 := by
    rw [unescapedCount_append, unescapedCount_cons_self (by rwa [Option.or_none]),
      hbefore.unescapedCount_eq hq]
    omega
  have hodd' : unescapedCount q none (after ++ q :: right) % 2 = 1 := by
    rw [unescapedCount_append, hafter.unescapedCount_eq hq,
      unescapedCount_cons_self (by rwa [Option.or_none])]
    omega
  exact List.any_eq_true.mpr ⟨q, by simpa [isQuote] using hq, by rw [hodd, hodd']; rfl⟩

end Span

namespace Splitter

variable {sp : Splitter} {text body : List Char} {q : Char}

/-- A text in which no marker occurs is not split. -/
theorem split_of_uncut (hne : text ≠ []) (h : ∀ sep ∈ sp.separators, sep.kind.cut? text = none) :
    sp.split text = [.plain text] := by
  obtain ⟨c, cs, rfl⟩ := List.exists_cons_of_ne_nil hne
  have hcutUp : sp.cutUp (c :: cs) = [.plain (c :: cs)] := by
    refine cutUp_induct (P := fun spans => spans = [.plain (c :: cs)]) rfl
      fun sep hsep spans hspans => ?_
    subst hspans
    show Span.splitText sep (cs.length + 1) (c :: cs) ++ [] = _
    rw [Span.splitText, h sep hsep]
    rfl
  rw [split_eq, hcutUp]
  split <;> rfl

/-- A literal is not split. -/
theorem split_literal (hsp : sp.BareMarkers) (haware : sp.literalAware = true)
    (hq : isQuote q = true) (hbody : Within q body) (hlast : body.getLast? ≠ some escapeChar) :
    sp.split (q :: (body ++ [q])) = [.plain (q :: (body ++ [q]))] := by
  have hne : q :: (body ++ [q]) ≠ [] := List.cons_ne_nil _ _
  have htext := flatMap_text_cutUp hsp.slices (q :: (body ++ [q]))
  have hplain : ∀ s ∈ Span.demote [] (sp.cutUp (q :: (body ++ [q]))), s.isSeparator = false := by
    intro s hs
    by_contra hsep
    rw [Bool.not_eq_false] at hsep
    obtain ⟨front, behind, hdemote⟩ := List.append_of_mem hs
    obtain ⟨before, after, hcut, -, hkept⟩ := Span.exists_of_demote hsep hdemote
    have hmem : s ∈ sp.cutUp (q :: (body ++ [q])) := by
      rw [hcut]
      exact List.mem_append_right _ List.mem_cons_self
    have hbare := hsp.bare hmem hsep
    have hmarker := (sp.filled_cutUp hne).text_ne_nil s hmem
    rw [hcut, List.flatMap_append, List.flatMap_cons] at htext
    obtain ⟨left, right, hleft, hright, rfl⟩ := Span.exists_of_cut_literal hq hbare hmarker htext
    have hafter : (!after.isEmpty) = true := by
      cases after with
      | nil =>
        exact absurd hright.symm (List.append_ne_nil_of_right_ne_nil right (List.cons_ne_nil q []))
      | cons => rfl
    have hquoted : Span.quoted (q :: left) (right ++ [q]) = true :=
      Span.quoted_of_within hq hbody hlast hbare hmarker [] [] rfl nofun rfl
    rw [List.nil_append, Span.demoted, hleft, hright, hquoted, hafter] at hkept
    rw [← hkept] at hsep
    cases hsep
  rw [split_eq, if_pos haware,
    Span.merge_of_plain (Span.demote_ne_nil [] (sp.filled_cutUp hne).ne_nil) hplain,
    List.flatMap_def, Span.text_demote, ← List.flatMap_def, htext]

end Splitter

namespace Lexer

variable {lx : Lexer} {text : List Char} {type : TokenType}

theorem classify_of_split (hsplit : lx.splitter.split text = [.plain text]) (before : Position)
    {tokens : List Token} (h : ∀ within, lx.classifySpan within text before = .ok tokens) :
    lx.classify text before = .ok tokens := by
  rw [classify, classifyText, hsplit, classifySpans, classifySpans]
  show (do
      let tokens ← lx.classifySpan _ text before; let more ← Except.ok []; return tokens ++ more) =
      _
  rw [h]
  exact congrArg Except.ok (List.append_nil tokens)

/-- A literal is one token. -/
theorem classify_literal (hsplit : lx.splitter.split text = [.plain text])
    (htype : lx.literal = some type) (htext : isLiteralText text = true) (before : Position) :
    lx.classify text before = .ok [lx.token text [type] before] := by
  refine classify_of_split hsplit before fun within => ?_
  rw [classifySpan, htype, Option.filter_some, if_pos htext]

/-- Without markers at its ends a text is one token. -/
theorem classify_plain (hsplit : lx.splitter.split text = [.plain text])
    (hleading : ∀ t ∈ lx.leading, t.kind.remainingRight? text = none)
    (htrailing : ∀ t ∈ lx.trailing, t.kind.remainingLeft? text = none)
    (htext : isLiteralText text = false) (htypes : lx.plainTypes text ≠ []) (before : Position) :
    lx.classify text before = .ok [lx.token text (lx.plainTypes text) before] := by
  refine classify_of_split hsplit before fun within => ?_
  have hliteral : lx.literal.filter (fun _ => isLiteralText text) = none := by
    rw [htext]
    cases lx.literal <;> rfl
  have hright : (lx.leading.findSome? fun t => (t.kind.remainingRight? text).map (t, ·)) = none :=
    List.findSome?_eq_none_iff.mpr fun t ht => by rw [hleading t ht, Option.map_none]
  have hleft : (lx.trailing.findSome? fun t => (t.kind.remainingLeft? text).map (t, ·)) = none :=
    List.findSome?_eq_none_iff.mpr fun t ht => by rw [htrailing t ht, Option.map_none]
  obtain ⟨t, ts, hcons⟩ := List.exists_cons_of_ne_nil htypes
  rw [classifySpan, hliteral, hright, hleft, hcons]

/-- Where case counts for all keywords, and no two have the same text, the one
with the text is found. -/
theorem keyword?_eq_some_iff (hsensitive : ∀ t ∈ lx.keywords, ∃ stored,
      t.kind = .keyword stored true) (hnodup : (lx.keywords.map (·.kind.keyword?)).Nodup) :
    lx.keyword? text = some type ↔ type ∈ lx.keywords ∧
      type.kind.keyword? = some (.ofList text) := by
  constructor
  · intro h
    rcases Option.or_eq_some_iff.mp h with h | ⟨-, h⟩
    · have htext : (type.kind.keyword? == some (String.ofList text)) = true :=
        List.find?_some (p := fun t : TokenType => t.kind.keyword? == some (String.ofList text)) h
      exact ⟨List.mem_of_find?_eq_some h, eq_of_beq htext⟩
    · have hmem := List.mem_of_find?_eq_some h
      have haccepts : (type.kind.keyword? == some (Text.upper (String.ofList text)) &&
          type.kind.accepts text) = true :=
        List.find?_some (p := fun t : TokenType =>
          t.kind.keyword? == some (Text.upper (String.ofList text)) && t.kind.accepts text) h
      obtain ⟨stored, hstored⟩ := hsensitive type hmem
      rw [hstored, Bool.and_eq_true] at haccepts
      exact ⟨hmem, by rw [hstored]; exact congrArg some (eq_of_beq haccepts.2).symm⟩
  · rintro ⟨hmem, htext⟩
    rw [keyword?]
    cases hfind : lx.keywords.find? fun t => t.kind.keyword? == some (String.ofList text) with
    | none => exact absurd (beq_iff_eq.mpr htext) (List.find?_eq_none.mp hfind type hmem)
    | some t =>
      have ht : (t.kind.keyword? == some (String.ofList text)) = true :=
        List.find?_some (p := fun t : TokenType => t.kind.keyword? ==
          some (String.ofList text)) hfind
      have heq : t.kind.keyword? = type.kind.keyword? := (eq_of_beq ht).trans htext.symm
      rw [List.inj_on_of_nodup_map hnodup (List.mem_of_find?_eq_some hfind) hmem heq]
      rfl

end Lexer

end GrammarGraph
