import GrammarGraph.Proofs.Gaps

/-!
# Scanning a text

The texts and types of the tokens of a text depend on the texts of its chunks alone
(`Lexer.outline_tokenizeFrom`), and these come from a scan of single steps (`Stream.scan`), which
can be interrupted where a given part of the text is left to read.
-/

namespace GrammarGraph

/-- The first list and behind it the second, or the first failure. -/
def followedBy {α : Type} (r r' : Except String (List α)) : Except String (List α) := do
  let front ← r
  let back ← r'
  return front ++ back

section

variable {α : Type} {r : Except String (List α)}

@[simp] theorem nil_followedBy (r : Except String (List α)) : followedBy (.ok []) r = r := by
  cases r <;> rfl

@[simp] theorem followedBy_nil (r : Except String (List α)) : followedBy r (.ok []) = r := by
  cases r with
  | error e => rfl
  | ok l => exact congrArg Except.ok (List.append_nil l)

theorem followedBy_assoc (r r' r'' : Except String (List α)) :
    followedBy (followedBy r r') r'' = followedBy r (followedBy r' r'') := by
  cases r with
  | error e => rfl
  | ok l =>
    cases r' with
    | error e => rfl
    | ok l' =>
      cases r'' with
      | error e => rfl
      | ok l'' => exact congrArg Except.ok (List.append_assoc l l' l'')

end

/-! ## Tokens without their positions -/

/-- Texts and types of the tokens, or the text of the error. -/
def outline {ε : Type} (text : ε → String) :
    Except ε (List Token) → Except String (List (String × List TokenType))
  | .ok tokens => .ok (tokens.map fun t => (t.text, t.types))
  | .error e => .error (text e)

section

variable {ε : Type} {text : ε → String}

theorem outline_append (r r' : Except ε (List Token)) :
    outline text (do let front ← r; let back ← r'; return front ++ back) =
      followedBy (outline text r) (outline text r') := by
  cases r with
  | error e => rfl
  | ok tokens =>
    cases r' with
    | error e => rfl
    | ok tokens' => exact congrArg Except.ok List.map_append

theorem outline_map_cons (t : Token) (r : Except ε (List Token)) :
    outline text (r.map (t :: ·)) = followedBy (.ok [(t.text, t.types)]) (outline text r) := by
  cases r <;> rfl

theorem outline_map_concat (t : Token) (r : Except ε (List Token)) :
    outline text (r.map (· ++ [t])) = followedBy (outline text r) (.ok [(t.text, t.types)]) := by
  cases r with
  | error e => rfl
  | ok tokens => exact congrArg Except.ok List.map_append

theorem outline_mapM_append (l l' : List (Except ε Token)) :
    outline text ((l ++ l').mapM id) =
      followedBy (outline text (l.mapM id)) (outline text (l'.mapM id)) := by
  rw [← outline_append, List.mapM_append]

end

/-- The text that is not recognized. -/
def UnknownSpan.string (u : UnknownSpan) : String := .ofList u.text

namespace Lexer

variable {lx : Lexer} {within : List Char → Position → Except UnknownSpan (List Token)}

theorem outline_classifySpan
    (hwithin : ∀ text a b,
      outline UnknownSpan.string (within text a) = outline UnknownSpan.string (within text b))
    (text : List Char) (a b : Position) :
    outline UnknownSpan.string (lx.classifySpan within text a) =
      outline UnknownSpan.string (lx.classifySpan within text b) := by
  unfold classifySpan
  split
  · rfl
  · split
    · rw [outline_map_cons, outline_map_cons, hwithin]
      rfl
    · split
      · rw [outline_map_concat, outline_map_concat, hwithin _ a b]
        rfl
      · split <;> rfl

theorem outline_classifySpans
    (hwithin : ∀ text a b,
      outline UnknownSpan.string (within text a) = outline UnknownSpan.string (within text b))
    (spans : List Span) (a b : Position) :
    outline UnknownSpan.string (lx.classifySpans within spans a) =
      outline UnknownSpan.string (lx.classifySpans within spans b) := by
  induction spans generalizing a b with
  | nil => rfl
  | cons s spans ih =>
    have hspans := ih (a.advanceOver lx.tabSize s.text) (b.advanceOver lx.tabSize s.text)
    rw [classifySpans, classifySpans]
    cases s.separator with
    | some sep =>
      refine (outline_append _ _).trans (Eq.trans ?_ (outline_append _ _).symm)
      rw [hspans]
      rfl
    | none =>
      refine (outline_append _ _).trans (Eq.trans ?_ (outline_append _ _).symm)
      rw [hspans, outline_classifySpan hwithin s.text a b]

theorem outline_classifyText (fuel : Nat) (text : List Char) (a b : Position) :
    outline UnknownSpan.string (lx.classifyText fuel text a) =
      outline UnknownSpan.string (lx.classifyText fuel text b) := by
  induction fuel generalizing text a b with
  | zero => rfl
  | succ fuel ih => exact outline_classifySpans ih (lx.splitter.split text) a b

/-- What the texts of chunks come to, wherever the chunks stand. -/
def outlineOf (lx : Lexer) : List (List Char) → Except String (List (String × List TokenType))
  | [] => .ok []
  | text :: texts =>
    followedBy (outline UnknownSpan.string (lx.classify text .origin)) (outlineOf lx texts)

theorem outlineOf_append (lx : Lexer) (texts texts' : List (List Char)) :
    lx.outlineOf (texts ++ texts') = followedBy (lx.outlineOf texts) (lx.outlineOf texts') := by
  induction texts with
  | nil => exact (nil_followedBy _).symm
  | cons text texts ih => rw [List.cons_append, outlineOf, outlineOf, ih, followedBy_assoc]

theorem outline_ofChunk (lx : Lexer) (source : Option String) (chunk : Chunk) :
    outline ParseError.text ((Stream.ofChunk lx source chunk).mapM id) =
      outline UnknownSpan.string (lx.classify chunk.text .origin) := by
  refine Eq.trans ?_ (outline_classifyText _ chunk.text chunk.before .origin)
  show _ = outline UnknownSpan.string (lx.classify chunk.text chunk.before)
  unfold Stream.ofChunk
  cases lx.classify chunk.text chunk.before with
  | error u => rfl
  | ok tokens => rw [mapM_id_eq_ok.mpr rfl]; rfl

end Lexer

namespace Stream

variable {lx : Lexer} {s s' t t' : Stream} {c : Char} {cs seen tail : List Char} {mode : Mode}
  {chunk : Chunk} {left fuel : ℕ}

/-! ## Scans -/

/-- Read step by step until at most `left` characters are left, and return the texts of the chunks
that are then complete. -/
def scanFor (lx : Lexer) (left : ℕ) : ℕ → Stream → List (List Char) × Stream
  | 0, s => ([], s)
  | fuel + 1, s =>
    if s.window.rest.length ≤ left then ([], s)
    else
      match s.window.lookahead with
      | [] => ([], s)
      | c :: cs =>
        let result := s.step lx c (c :: cs)
        let more := result.2.scanFor lx left fuel
        (result.1.toList.map Chunk.text ++ more.1, more.2)

def scan (lx : Lexer) (left : ℕ) (s : Stream) : List (List Char) × Stream :=
  s.scanFor lx left s.window.rest.length

/-- The text of the chunk being collected. -/
def leftover (s : Stream) : List (List Char) := s.flush.1.toList.map Chunk.text

/-- The texts of all chunks that are still to come, and the stream behind them. -/
def scanAll (lx : Lexer) (s : Stream) : List (List Char) × Stream :=
  ((s.scan lx 0).1 ++ (s.scan lx 0).2.leftover, (s.scan lx 0).2.flush.2)

/-- What can be seen starts with the next character. -/
theorem exists_seen (hs : 0 < s.window.size) (hrest : s.window.rest = c :: cs) :
    ∃ seen, s.window.lookahead = c :: seen := by
  rw [Window.lookahead, hrest]
  obtain ⟨size, hsize⟩ := Nat.exists_eq_succ_of_ne_zero (Nat.ne_of_gt hs)
  exact ⟨cs.take size, by rw [hsize, List.take_succ_cons]⟩

/-- The first character that can be seen is the next. -/
theorem exists_rest (hseen : s.window.lookahead = c :: cs) : ∃ rest, s.window.rest = c :: rest := by
  obtain ⟨behind, hrest⟩ := List.take_prefix s.window.size s.window.rest
  rw [← hrest, ← Window.lookahead, hseen]
  exact ⟨cs ++ behind, rfl⟩

theorem scanFor_of_le (h : s.window.rest.length ≤ left) : s.scanFor lx left fuel = ([], s) := by
  cases fuel with
  | zero => rfl
  | succ fuel => rw [scanFor, if_pos h]

theorem scanFor_eq {m n : ℕ} (hm : s.window.rest.length ≤ m) (hn : s.window.rest.length ≤ n) :
    s.scanFor lx left m = s.scanFor lx left n := by
  induction m generalizing s n with
  | zero =>
    have hle : s.window.rest.length ≤ left := le_trans hm (Nat.zero_le _)
    rw [scanFor_of_le hle, scanFor_of_le hle]
  | succ m ih =>
    by_cases hleft : s.window.rest.length ≤ left
    · rw [scanFor_of_le hleft, scanFor_of_le hleft]
    · cases n with
      | zero => exact absurd (le_trans hn (Nat.zero_le _)) hleft
      | succ n =>
        rw [scanFor, scanFor, if_neg hleft, if_neg hleft]
        split
        · rfl
        · next c cs hseen =>
          have hrest : s.window.rest ≠ [] := rest_ne_nil (by rw [hseen]; exact List.cons_ne_nil _ _)
          have hlt := (advances_step lx c (c :: cs) hrest).lt
          simp only [ih (n := n) (Nat.le_of_lt_succ (lt_of_lt_of_le hlt hm))
            (Nat.le_of_lt_succ (lt_of_lt_of_le hlt hn))]

theorem scan_of_le (h : s.window.rest.length ≤ left) : s.scan lx left = ([], s) := scanFor_of_le h

theorem scan_step (hleft : left < s.window.rest.length) (hseen : s.window.lookahead = c :: cs) :
    s.scan lx left = ((s.step lx c (c :: cs)).1.toList.map Chunk.text ++
      ((s.step lx c (c :: cs)).2.scan lx left).1, ((s.step lx c (c :: cs)).2.scan lx left).2) := by
  have hrest : s.window.rest ≠ [] := List.ne_nil_of_length_pos (Nat.zero_lt_of_lt hleft)
  have hlt := (advances_step lx c (c :: cs) hrest).lt
  rw [scan, scanFor_eq (n := s.window.rest.length + 1) (le_refl _) (Nat.le_succ _), scanFor,
    if_neg (not_le.mpr hleft), hseen]
  simp only
  rw [scanFor_eq (le_of_lt hlt) (le_refl _)]
  rfl

/-- Induction on the steps of a stream, from where at most `left` characters are left to read. -/
theorem step_induction {P : Stream → Prop} (lx : Lexer) (left : ℕ) (hsize : 0 < s.window.size)
    (stop : ∀ s, 0 < s.window.size → s.window.rest.length ≤ left → P s)
    (step : ∀ s c cs, 0 < s.window.size → left < s.window.rest.length →
      s.window.lookahead = c :: cs → P (s.step lx c (c :: cs)).2 → P s) : P s := by
  generalize hn : s.window.rest.length = n
  induction n using Nat.strong_induction_on generalizing s with
  | h n ih =>
    by_cases hleft : s.window.rest.length ≤ left
    · exact stop s hsize hleft
    · obtain ⟨c, cs, hrest⟩ := List.exists_cons_of_length_pos (Nat.zero_lt_of_lt (not_le.mp hleft))
      obtain ⟨seen, hseen⟩ := exists_seen hsize hrest
      have hadvances :=
        advances_step (s := s) lx c (c :: seen) (by rw [hrest]; exact List.cons_ne_nil _ _)
      exact step s c seen hsize (not_le.mp hleft) hseen
        (ih _ (hn ▸ hadvances.lt) (by rwa [hadvances.size]) rfl)

/-- A property that every step keeps up holds where a scan stops. -/
theorem scan_induct {P : Stream → Prop} (left : ℕ) (hs : P s) (hsize : 0 < s.window.size)
    (hstep : ∀ s c cs, P s → s.window.lookahead = c :: cs → P (s.step lx c (c :: cs)).2) :
    P (s.scan lx left).2 := by
  refine step_induction (P := fun s => P s → P (s.scan lx left).2) lx left hsize ?_ ?_ hs
  · intro s _ hleft hs
    rwa [scan_of_le hleft]
  · intro s c cs _ hleft hseen ih hs
    rw [scan_step hleft hseen]
    exact ih (hstep s c cs hs hseen)

/-- A scan can be interrupted. -/
theorem scan_scan {left' : ℕ} (hle : left' ≤ left) (hsize : 0 < s.window.size) :
    s.scan lx left' = ((s.scan lx left).1 ++ ((s.scan lx left).2.scan lx left').1,
      ((s.scan lx left).2.scan lx left').2) := by
  refine step_induction
    (P := fun s => s.scan lx left' = ((s.scan lx left).1 ++ ((s.scan lx left).2.scan lx left').1,
    ((s.scan lx left).2.scan lx left').2)) lx left hsize ?_ ?_
  · intro s _ hleft
    rw [scan_of_le hleft, List.nil_append]
  · intro s c cs _ hleft hseen ih
    rw [scan_step (lt_of_le_of_lt hle hleft) hseen, scan_step hleft hseen, ih, List.append_assoc]

/-- At its end a scan of everything has read all. -/
theorem rest_scan_zero (lx : Lexer) (hsize : 0 < s.window.size) :
    (s.scan lx 0).2.window.rest = [] := by
  refine step_induction (P := fun s => (s.scan lx 0).2.window.rest = []) lx 0 hsize ?_ ?_
  · intro s _ hleft
    rw [scan_of_le hleft]
    exact List.length_eq_zero_iff.mp (Nat.le_zero.mp hleft)
  · intro s c cs _ hleft hseen ih
    rw [scan_step hleft hseen]
    exact ih

/-! ## All chunks of a text -/

theorem scanAll_of_nil (h : s.window.rest = []) : s.scanAll lx = (s.leftover, s.flush.2) := by
  rw [scanAll, scan_of_le (by rw [h]; exact le_refl _), List.nil_append]

theorem scanAll_step (hseen : s.window.lookahead = c :: cs) : s.scanAll lx =
    ((s.step lx c (c :: cs)).1.toList.map Chunk.text ++ ((s.step lx c (c :: cs)).2.scanAll lx).1,
      ((s.step lx c (c :: cs)).2.scanAll lx).2) := by
  have hrest : s.window.rest ≠ [] := rest_ne_nil (by rw [hseen]; exact List.cons_ne_nil _ _)
  simp only [scanAll]
  rw [scan_step (List.length_pos_iff.mpr hrest) hseen, List.append_assoc]

/-- Behind a scan up to some border, what follows is scanned from there. -/
theorem scanAll_scan (left : ℕ) (hsize : 0 < s.window.size) :
    s.scanAll lx = ((s.scan lx left).1 ++ ((s.scan lx left).2.scanAll lx).1,
      ((s.scan lx left).2.scanAll lx).2) := by
  simp only [scanAll]
  rw [scan_scan (Nat.zero_le left) hsize, List.append_assoc]

theorem flush_of_nil (h : s.collected = []) : s.flush = (none, s) := by
  rw [flush, h]
  rfl

theorem collected_flush (s : Stream) : s.flush.2.collected = [] := by
  unfold flush
  split
  · next h => exact List.isEmpty_iff.mp h
  · rfl

theorem scanAll_flush (h : s.window.rest = []) :
    s.scanAll lx =
      (s.flush.1.toList.map Chunk.text ++ (s.flush.2.scanAll lx).1, (s.flush.2.scanAll lx).2) := by
  rw [scanAll_of_nil h, scanAll_of_nil (by rw [window_flush, h]), leftover, leftover,
    flush_of_nil (collected_flush s)]
  exact congrArg (·, s.flush.2) (List.append_nil _).symm

/-- The first chunk, and what follows it. -/
theorem scanAll_readChunk (lx : Lexer) (hsize : 0 < s.window.size)
    (hfuel : s.window.rest.length ≤ fuel) : s.scanAll lx =
    ((s.readChunk lx fuel).1.toList.map Chunk.text ++ ((s.readChunk lx fuel).2.scanAll lx).1,
      ((s.readChunk lx fuel).2.scanAll lx).2) := by
  induction fuel generalizing s with
  | zero => exact scanAll_flush (List.length_eq_zero_iff.mp (Nat.le_zero.mp hfuel))
  | succ fuel ih =>
    rw [readChunk]
    split
    · next hend => exact scanAll_flush (lookahead_eq_nil hsize hend)
    · next c cs hseen =>
      have hrest : s.window.rest ≠ [] := rest_ne_nil (by rw [hseen]; exact List.cons_ne_nil _ _)
      have hadvances := advances_step (s := s) lx c (c :: cs) hrest
      rw [scanAll_step hseen]
      split
      · next chunk t hstep => rw [hstep]
      · next t hstep =>
        rw [hstep] at hadvances ⊢
        exact ih (by rw [hadvances.size]; exact hsize)
          (Nat.le_of_lt_succ (lt_of_lt_of_le hadvances.lt hfuel))

theorem scanAll_nextChunk (lx : Lexer) (hs : s.Idle) :
    s.scanAll lx = ((s.nextChunk lx).1.toList.map Chunk.text ++ ((s.nextChunk lx).2.scanAll lx).1,
      ((s.nextChunk lx).2.scanAll lx).2) :=
  scanAll_readChunk lx hs.size_pos (le_refl _)

theorem exists_classify_of_mem_ofChunk {source : Option String} {token : Token}
    (hmem : .ok token ∈ ofChunk lx source chunk) :
    ∃ tokens, lx.classify chunk.text chunk.before = .ok tokens ∧ token ∈ tokens := by
  unfold ofChunk at hmem
  split at hmem
  · cases List.mem_singleton.mp hmem
  · next tokens hclassify =>
    obtain ⟨token', htoken, heq⟩ := List.mem_map.mp hmem
    obtain rfl := Except.ok.inj heq
    exact ⟨tokens, hclassify, htoken⟩

/-- Draining a stream classifies the chunks that it scans. -/
theorem drain_eq_scanAll (hs : s.Idle) (hfuel : s.window.rest.length < fuel) :
    outline ParseError.text ((s.drain lx fuel).1.mapM id) = lx.outlineOf (s.scanAll lx).1 ∧
      (s.drain lx fuel).2 = (s.scanAll lx).2 := by
  induction fuel generalizing s with
  | zero => exact absurd hfuel (Nat.not_lt_zero _)
  | succ fuel ih =>
    have hreads := readsChunk_nextChunk lx hs
    have hscan := scanAll_nextChunk lx hs
    rw [drain]
    rcases hnext : s.nextChunk lx with ⟨_ | chunk, t⟩ <;> rw [hnext] at hreads hscan <;> simp only
    · rw [hscan, scanAll_of_nil (hreads.rest_eq rfl), leftover, flush_of_nil hreads.idle.collected]
      exact ⟨rfl, rfl⟩
    · obtain ⟨htexts, hbehind⟩ := ih hreads.idle
        (Nat.lt_of_lt_of_le (hreads.rest_lt chunk rfl hs.collected) (Nat.le_of_lt_succ hfuel))
      rw [hscan]
      refine ⟨?_, hbehind⟩
      rw [outline_mapM_append, htexts, Lexer.outline_ofChunk]
      rfl

end Stream

/-- Tokenizing a text classifies the chunks that a scan of it gives, and reads as far. -/
theorem Lexer.outline_tokenizeFrom (lx : Lexer) (text : List Char) (source : Option String) :
    outline ParseError.text (lx.tokenizeFrom text source) =
      lx.outlineOf ((lx.stream text source).scanAll lx).1 ∧
      ((lx.stream text source).results lx).2 = ((lx.stream text source).scanAll lx).2 :=
  Stream.drain_eq_scanAll (Stream.idle_stream lx text source) (Nat.lt_succ_self _)

end GrammarGraph
