import GrammarGraph.Proofs.Cuts

/-!
# Separators among quotes

A stream follows the one literal that is open (`Stream.openBehind`), whereas the splitter counts the
quotes of either kind on both sides of a separator.  The two agree where the quotes that a literal
holds come in pairs and none opens one behind an escape character (`Paired`): then a separator is
cut out exactly outside of literals (`Splitter.separates_iff`).  One quote of the other kind in each
of two literals is enough to lose the separator between them (`Sample.dash_lost_between_literals`).
-/

namespace GrammarGraph

variable {text left right body rest : List Char} {q k : Char} {previous : Option Char}

/-! ## The literal that is open -/

namespace Stream

/-- The quote that is open behind a text, given the one that is open in front of it.  In a literal a
quote behind an escape character is passed over. -/
def openBehind : Option Char → List Char → Option Char
  | openQuote, [] => openQuote
  | none, c :: cs => openBehind (if isQuote c then some c else none) cs
  | some q, [c] => if c = q then none else some q
  | some q, c :: d :: cs =>
    if c = escapeChar && isQuote d then openBehind (some q) cs
    else openBehind (if c = q then none else some q) (d :: cs)

/-- Read the input into the chunk. -/
def collectAll (lx : Lexer) : Nat → Stream → Stream
  | 0, s => s
  | fuel + 1, s =>
    match s.window.lookahead with
    | [] => s
    | c :: cs => collectAll lx fuel (s.consume lx c (c :: cs))

section Consume

variable {lx : Lexer} {s : Stream} {c : Char} {cs : List Char}

theorem collect_of_rest (hrest : s.window.rest = c :: cs) :
    s.collect.window.rest = cs ∧ s.collect.openQuote = s.openQuote ∧ s.collect.mode = s.mode ∧
      s.collect.window.size = s.window.size := by
  simp only [collect, Window.next?, hrest]
  exact ⟨trivial, trivial, trivial, trivial⟩

/-- What a stream in the normal mode reads at once leads to the same open quote. -/
theorem openBehind_consume (hlx : lx.literal.isSome = true) (hmode : s.mode = .normal)
    (hsize : 2 ≤ s.window.size) (hrest : s.window.rest = c :: cs) :
    openBehind (s.consume lx c s.window.lookahead).openQuote
      (s.consume lx c s.window.lookahead).window.rest = openBehind s.openQuote s.window.rest ∧
      (s.consume lx c s.window.lookahead).mode = .normal ∧
      (s.consume lx c s.window.lookahead).window.size = s.window.size := by
  have hliteral : ¬lx.literal.isNone = true := by
    rw [← Option.not_isSome, hlx]
    decide
  have hone : ∀ quote, ({ s with openQuote := quote }).collect.window.rest = cs ∧
      ({ s with openQuote := quote }).collect.openQuote = quote ∧
      ({ s with openQuote := quote }).collect.mode = s.mode ∧
      ({ s with openQuote := quote }).collect.window.size = s.window.size :=
        fun quote => collect_of_rest hrest
  rw [consume, if_neg (not_not.mpr hmode), if_neg hliteral]
  cases hquote : s.openQuote with
  | none =>
    obtain ⟨hcollect, hopen, hnormal, hwindow⟩ := hone (if isQuote c then some c else none)
    simp only [hcollect, hopen, hnormal, hwindow, hrest]
    exact ⟨rfl, hmode, trivial⟩
  | some q =>
    have hseen : s.window.lookahead[1]? = cs.head? := by
      rw [Window.lookahead, hrest, List.getElem?_take_of_lt hsize, List.head?_eq_getElem?]
      rfl
    simp only [hseen]
    obtain ⟨hcollect, hopen, hnormal, hwindow⟩ := hone (if c = q then none else some q)
    cases cs with
    | nil =>
      rw [List.head?_nil, Option.any_none, Bool.and_false, if_neg Bool.false_ne_true]
      simp only [hcollect, hopen, hnormal, hwindow, hrest]
      exact ⟨by rw [openBehind, openBehind], hmode, trivial⟩
    | cons d cs =>
      rw [List.head?_cons, Option.any_some]
      split
      · next hescape =>
        obtain ⟨hfirst, hopen', hnormal', hwindow'⟩ := collect_of_rest hrest
        obtain ⟨hsecond, hopen'', hnormal'', hwindow''⟩ := collect_of_rest hfirst
        rw [hsecond, hopen'', hopen', hnormal'', hnormal', hwindow'', hwindow', hquote, hrest,
          openBehind, if_pos hescape]
        exact ⟨rfl, hmode, rfl⟩
      · next hescape =>
        rw [hcollect, hopen, hnormal, hwindow, hrest, openBehind.eq_4, if_neg hescape]
        exact ⟨rfl, hmode, rfl⟩

/-- Reading on in the normal mode, a stream follows the open literal. -/
theorem openQuote_collectAll (hlx : lx.literal.isSome = true) {fuel : Nat}
    (hmode : s.mode = .normal) (hsize : 2 ≤ s.window.size) (hfuel : s.window.rest.length ≤ fuel) :
    (collectAll lx fuel s).openQuote = openBehind s.openQuote s.window.rest := by
  induction fuel generalizing s with
  | zero =>
    rw [List.length_eq_zero_iff.mp (Nat.le_zero.mp hfuel)]
    cases hquote : s.openQuote <;> rw [collectAll, hquote] <;> rfl
  | succ fuel ih =>
    rw [collectAll]
    split
    · next hend =>
      rw [lookahead_eq_nil (Nat.lt_of_lt_of_le Nat.zero_lt_two hsize) hend]
      cases s.openQuote <;> rfl
    · next c cs hseen =>
      have hne : s.window.rest ≠ [] := rest_ne_nil (by rw [hseen]; exact List.cons_ne_nil _ _)
      obtain ⟨c', cs', hrest⟩ := List.exists_cons_of_ne_nil hne
      obtain rfl : c' = c := by
        have hhead := congrArg List.head? hseen
        rw [Window.lookahead, List.head?_take, if_neg (by omega), hrest] at hhead
        exact Option.some.inj hhead
      obtain ⟨hopen, hnormal, hwindow⟩ := openBehind_consume hlx hmode hsize hrest
      have hlt := (advances_consume (s := s) lx c' (c' :: cs) hne).lt
      rw [hseen] at hopen hnormal hwindow
      rw [ih hnormal (hwindow ▸ hsize) (Nat.le_of_lt_succ (Nat.lt_of_lt_of_le hlt hfuel)), hopen]

end Consume

end Stream

/-! ## Literals whose quotes come in pairs -/

/-- No quote follows directly. -/
def Unquoted (text : List Char) : Prop := ∀ c ∈ text.head?, isQuote c = false

/-- A beginning of what stands between two quotes. -/
inductive Within (q : Char) : List Char → Prop
  | nil : Within q []
  | escaped {d : Char} {body : List Char} : isQuote d = true → Within q body →
      Within q (escapeChar :: d :: body)
  | char {c : Char} {body : List Char} : c ≠ q → (c = escapeChar → Unquoted body) → Within q body →
      Within q (c :: body)

/-- Literals and text between them.  No quote opens a literal behind an escape character, and the
quotes of the other kind in a literal come in pairs. -/
inductive Paired : List Char → Prop
  | nil : Paired []
  | char {c : Char} {text : List Char} : isQuote c = false → (c = escapeChar → Unquoted text) →
      Paired text → Paired (c :: text)
  | literal {q : Char}
      {body text : List Char} : isQuote q = true → Within q body → body.getLast? ≠ some escapeChar →
      (∀ k, isQuote k = true → k ≠ q → Span.unescapedCount k none body % 2 = 0) → Paired text →
      Paired (q :: (body ++ q :: text))

theorem ne_escapeChar_of_isQuote (h : isQuote q = true) : q ≠ escapeChar := by
  rintro rfl
  exact absurd h (by decide)

namespace Span

theorem unescapedCount_append (quote : Char) (previous : Option Char) (text rest : List Char) :
    unescapedCount quote previous (text ++ rest) =
      unescapedCount quote previous text +
      unescapedCount quote (text.getLast?.or previous) rest := by
  induction text generalizing previous with
  | nil => exact (Nat.zero_add _).symm
  | cons c cs ih =>
    rw [List.cons_append, unescapedCount, unescapedCount, ih, Nat.add_assoc]
    congr 3
    cases cs with
    | nil => rfl
    | cons d ds => rw [List.getLast?_cons_cons]; cases h : (d :: ds).getLast? <;> simp_all

/-- Of the character before a text it only matters whether it is an escape character. -/
theorem unescapedCount_of_ne (quote : Char) (h : previous ≠ some escapeChar) (text : List Char) :
    unescapedCount quote previous text = unescapedCount quote none text := by
  cases text with
  | nil => rfl
  | cons c cs =>
    have hprevious : (previous != some escapeChar) = true := bne_iff_ne.mpr h
    rw [unescapedCount, unescapedCount, hprevious]
    rfl

theorem unescapedCount_cons_of_ne {c : Char} (hc : c ≠ k) (previous : Option Char)
    (text : List Char) :
    unescapedCount k previous (c :: text) = unescapedCount k (some c) text := by
  rw [unescapedCount, beq_eq_false_iff_ne.mpr hc]
  exact Nat.zero_add _

theorem unescapedCount_cons_self (h : previous ≠ some escapeChar) (text : List Char) :
    unescapedCount q previous (q :: text) = 1 + unescapedCount q (some q) text := by
  have hprevious : (previous != some escapeChar) = true := bne_iff_ne.mpr h
  rw [unescapedCount, hprevious, beq_self_eq_true]
  rfl

end Span

theorem Unquoted.of_append (h : Unquoted (left ++ right)) : Unquoted left := by
  cases left with
  | nil => exact nofun
  | cons c cs => exact h

theorem Unquoted.not_escapes {c d : Char} (h : c = escapeChar → Unquoted (d :: rest)) :
    ¬(c = escapeChar && isQuote d) = true := by
  intro hboth
  obtain ⟨hc, hd⟩ := Bool.and_eq_true_iff.mp hboth
  have hnot : isQuote d = false := h (of_decide_eq_true hc) d rfl
  exact absurd (hnot.symm.trans hd) Bool.false_ne_true

namespace Stream

theorem openBehind_escaped {d : Char} (hd : isQuote d = true) (rest : List Char) :
    openBehind (some q) (escapeChar :: d :: rest) = openBehind (some q) rest := by
  rw [openBehind, if_pos (by rw [hd]; decide)]

theorem openBehind_char {c d : Char} (hc : c ≠ q) (hescape : ¬(c = escapeChar && isQuote d) = true)
    (rest : List Char) :
    openBehind (some q) (c :: d :: rest) = openBehind (some q) (d :: rest) := by
  rw [openBehind.eq_4, if_neg hescape, if_neg hc]

end Stream

namespace Within

theorem unescapedCount_eq (h : Within q body) (hq : isQuote q = true) (previous : Option Char) :
    Span.unescapedCount q previous body = 0 := by
  induction h generalizing previous with
  | nil => rfl
  | @escaped d body hd _ ih =>
    rw [Span.unescapedCount_cons_of_ne (ne_escapeChar_of_isQuote hq).symm, Span.unescapedCount, ih]
    have hprevious : (some escapeChar != some escapeChar) = false := by decide
    rw [hprevious, Bool.and_false]
    rfl
  | char hc _ _ ih => rw [Span.unescapedCount_cons_of_ne hc, ih]

/-- In a literal its quote stays open. -/
theorem openBehind_append (h : Within q body)
    (hrest : body.getLast? = some escapeChar → Unquoted rest) :
    Stream.openBehind (some q) (body ++ rest) = Stream.openBehind (some q) rest := by
  induction h with
  | nil => rfl
  | @escaped d body hd _ ih =>
    rw [List.cons_append, List.cons_append, Stream.openBehind_escaped hd]
    refine ih fun hlast => hrest ?_
    show ([escapeChar, d] ++ body).getLast? = _
    rw [List.getLast?_append, hlast]
    rfl
  | @char c body hc hescape _ ih =>
    have hnext : c = escapeChar → Unquoted (body ++ rest) := by
      intro h
      cases body with
      | nil => exact hrest (congrArg some h)
      | cons d ds => exact hescape h
    have hrest' : body.getLast? = some escapeChar → Unquoted rest := by
      intro hlast
      apply hrest
      rw [← List.singleton_append, List.getLast?_append, hlast]
      rfl
    rw [List.cons_append, ← ih hrest']
    cases htail : body ++ rest with
    | nil => rw [Stream.openBehind, Stream.openBehind, if_neg hc]
    | cons d ds =>
      rw [htail] at hnext
      exact Stream.openBehind_char hc (Unquoted.not_escapes hnext) ds

/-- Cut in two, but not behind the escape character of a quote. -/
theorem of_append (h : Within q (left ++ right))
    (hcut : left.getLast? = some escapeChar → Unquoted right) : Within q left ∧ Within q right := by
  have hlast : ∀ {front left : List Char}, (front ++ left).getLast? = some escapeChar ∨
      left.getLast? ≠ some escapeChar := by
    intro front left
    by_cases h : left.getLast? = some escapeChar
    · rw [List.getLast?_append, h]
      exact .inl rfl
    · exact .inr h
  generalize htext : left ++ right = text at h
  induction h generalizing left with
  | nil =>
    obtain ⟨rfl, rfl⟩ := List.append_eq_nil_iff.mp htext
    exact ⟨.nil, .nil⟩
  | @escaped d body hd hbody ih =>
    match left, htext with
    | [], htext => exact ⟨.nil, by rw [← List.nil_append right, htext]; exact .escaped hd hbody⟩
    | [c], htext =>
      obtain ⟨rfl, rfl⟩ := List.cons.inj htext
      have hnot := hcut rfl d rfl
      rw [hd] at hnot
      exact absurd hnot nofun
    | c :: c' :: left, htext =>
      obtain ⟨rfl, htail⟩ := List.cons.inj htext
      obtain ⟨rfl, hbody'⟩ := List.cons.inj htail
      obtain ⟨hleft, hwithin⟩ :=
        ih (fun h => hcut ((@hlast [_, _] left).resolve_right (not_not.mpr h))) hbody'
      exact ⟨.escaped hd hleft, hwithin⟩
  | @char c body hc hescape hbody ih =>
    match left, htext with
    | [], htext =>
      exact ⟨.nil, by rw [← List.nil_append right, htext]; exact .char hc hescape hbody⟩
    | c' :: left, htext =>
      obtain ⟨rfl, rfl⟩ := List.cons.inj htext
      obtain ⟨hleft, hwithin⟩ :=
        ih (fun h => hcut ((@hlast [_] left).resolve_right (not_not.mpr h))) rfl
      exact ⟨.char hc (fun h => Unquoted.of_append (hescape h)) hleft, hwithin⟩

end Within

theorem not_unquoted_cons (hq : isQuote q = true) : ¬Unquoted (q :: text) := by
  intro h
  have hnot := h q rfl
  rw [hq] at hnot
  exact absurd hnot nofun

theorem some_ne_escapeChar (hq : isQuote q = true) : some q ≠ some escapeChar := fun h =>
  ne_escapeChar_of_isQuote hq (Option.some.inj h)

namespace Within

/-- Behind the quote that closes a literal none is open. -/
theorem openBehind_literal (h : Within q body) (hq : isQuote q = true)
    (hlast : body.getLast? ≠ some escapeChar) :
    Stream.openBehind (some q) (body ++ q :: rest) = Stream.openBehind none rest := by
  rw [h.openBehind_append fun hescape => absurd hescape hlast]
  cases rest with
  | nil => rw [Stream.openBehind, Stream.openBehind, if_pos rfl]
  | cons d ds =>
    have hpair : ¬(q = escapeChar && isQuote d) = true := by
      rw [decide_eq_false (ne_escapeChar_of_isQuote hq)]
      exact Bool.false_ne_true
    rw [Stream.openBehind.eq_4, if_neg hpair, if_pos rfl]

/-- In a literal whose quotes come in pairs each quote is counted an even number of times. -/
theorem unescapedCount_literal (h : Within q body) (hq : isQuote q = true)
    (hlast : body.getLast? ≠ some escapeChar)
    (heven : ∀ k, isQuote k = true → k ≠ q → Span.unescapedCount k none body % 2 = 0)
    (hprevious : previous ≠ some escapeChar) (hk : isQuote k = true) (rest : List Char) :
    Span.unescapedCount k previous (q :: (body ++ q :: rest)) % 2 =
      Span.unescapedCount k (some q) rest % 2 := by
  have hclosing : body.getLast?.or (some q) ≠ some escapeChar := by
    cases hbody : body.getLast? with
    | none => exact some_ne_escapeChar hq
    | some c => rwa [hbody] at hlast
  by_cases hkq : k = q
  · subst hkq
    rw [Span.unescapedCount_cons_self hprevious, Span.unescapedCount_append, h.unescapedCount_eq hq,
      Span.unescapedCount_cons_self hclosing]
    omega
  · have hforeign := heven k hk hkq
    rw [Span.unescapedCount_cons_of_ne (Ne.symm hkq), Span.unescapedCount_append,
      Span.unescapedCount_cons_of_ne (Ne.symm hkq),
      Span.unescapedCount_of_ne k (some_ne_escapeChar hq)]
    omega

end Within

namespace Paired

/-- Each quote is counted an even number of times. -/
theorem even_unescapedCount (h : Paired text) (hk : isQuote k = true)
    (hprevious : previous = some escapeChar → Unquoted text) :
    Span.unescapedCount k previous text % 2 = 0 := by
  induction h generalizing previous with
  | nil => rfl
  | @char c text hc hescape _ ih =>
    have hne : c ≠ k := by
      rintro rfl
      rw [hc] at hk
      exact absurd hk nofun
    rw [Span.unescapedCount_cons_of_ne hne]
    exact ih fun h => hescape (Option.some.inj h)
  | @literal q body text hq hbody hlast heven _ ih =>
    rw [hbody.unescapedCount_literal hq hlast heven
      (fun h => not_unquoted_cons hq (hprevious h)) hk]
    exact ih fun h => absurd h (some_ne_escapeChar hq)

/-- Where a text is cut in two, but not in front of a quote, either no literal is open and each
quote has been counted an even number of times, or the quote of the open literal has been counted an
odd number of times and closes it further on. -/
theorem cut (h : Paired text) (htext : text = left ++ right) (hright : Unquoted right)
    (hprevious : previous = some escapeChar → Unquoted text) :
    (Stream.openBehind none left = none ∧
      ∀ k, isQuote k = true → Span.unescapedCount k previous left % 2 = 0) ∨
    ∃ q body rest, isQuote q = true ∧ Stream.openBehind none left = some q ∧
      Span.unescapedCount q previous left % 2 = 1 ∧ right = body ++ q :: rest ∧ Within q body ∧
      body.getLast? ≠ some escapeChar ∧ Paired rest := by
  induction h generalizing left previous with
  | nil =>
    obtain ⟨rfl, rfl⟩ := List.append_eq_nil_iff.mp htext.symm
    exact .inl ⟨rfl, fun k _ => rfl⟩
  | @char c text hc hescape _ ih =>
    cases left with
    | nil => exact .inl ⟨rfl, fun k _ => rfl⟩
    | cons c' left =>
      obtain ⟨rfl, htail⟩ := List.cons.inj htext
      have hnext : some c = some escapeChar → Unquoted text := fun h => hescape (Option.some.inj h)
      have hne : ∀ k, isQuote k = true → c ≠ k := by
        rintro k hk rfl
        rw [hc] at hk
        exact absurd hk nofun
      rw [Stream.openBehind, if_neg (by rw [hc]; decide)]
      rcases ih htail hnext with ⟨hopen, heven⟩ | ⟨q, body, rest, hq, hopen, hodd, hrest⟩
      · refine .inl ⟨hopen, fun k hk => ?_⟩
        rw [Span.unescapedCount_cons_of_ne (hne k hk)]
        exact heven k hk
      · refine .inr ⟨q, body, rest, hq, hopen, ?_, hrest⟩
        rwa [Span.unescapedCount_cons_of_ne (hne q hq)]
  | @literal q body text hq hbody hlast heven hpaired ih =>
    cases left with
    | nil => exact .inl ⟨rfl, fun k _ => rfl⟩
    | cons c' left =>
      obtain ⟨rfl, htail⟩ := List.cons.inj htext
      have hprevious' : previous ≠ some escapeChar := fun h => not_unquoted_cons hq (hprevious h)
      rw [Stream.openBehind, if_pos hq]
      rcases List.append_eq_append_iff.mp htail with ⟨behind, rfl, hbehind⟩ | ⟨behind, rfl, hbehind⟩
      · -- The literal is left of the cut.
        cases behind with
        | nil =>
          rw [List.nil_append] at hbehind
          rw [← hbehind] at hright
          exact absurd hright (not_unquoted_cons hq)
        | cons c'' behind =>
          obtain ⟨rfl, hcut⟩ := List.cons.inj hbehind
          have hcount : ∀ k, isQuote k = true →
              Span.unescapedCount k previous (q :: (body ++ q :: behind)) % 2 =
                Span.unescapedCount k (some q) behind % 2 :=
            fun k hk => hbody.unescapedCount_literal hq hlast heven hprevious' hk behind
          rw [hbody.openBehind_literal hq hlast]
          rcases ih hcut (fun h => absurd h (some_ne_escapeChar hq)) with
            ⟨hopen, heven⟩ | ⟨q', body', rest, hq', hopen, hodd, hrest⟩
          · exact .inl ⟨hopen, fun k hk => (hcount k hk).trans (heven k hk)⟩
          · exact .inr ⟨q', body', rest, hq', hopen, (hcount q' hq').trans hodd, hrest⟩
      · -- The cut is in the literal.
        rw [hbehind] at hright
        have hunquoted : Unquoted behind := Unquoted.of_append hright
        obtain ⟨hleft, hwithin⟩ := hbody.of_append fun _ => hunquoted
        have hopen :=
          hleft.openBehind_append (fun _ => nofun : left.getLast? = some escapeChar → Unquoted [])
        rw [List.append_nil] at hopen
        have hlast' : behind.getLast? ≠ some escapeChar := by
          intro h
          rw [List.getLast?_append, h] at hlast
          exact hlast rfl
        refine .inr ⟨q, behind, text, hq, hopen, ?_, hbehind, hwithin, hlast', hpaired⟩
        rw [Span.unescapedCount_cons_self hprevious', hleft.unescapedCount_eq hq]

/-- All literals are closed. -/
theorem openBehind_eq_none (h : Paired text) : Stream.openBehind none text = none := by
  rcases h.cut (List.append_nil text).symm nofun (nofun : none = some escapeChar → _) with
    ⟨hopen, -⟩ | ⟨q, body, rest, -, -, -, hnil, -⟩
  · exact hopen
  · exact absurd hnil.symm (List.append_ne_nil_of_right_ne_nil _ (List.cons_ne_nil _ _))

end Paired

/-! ## Counting on both sides of a separator -/

/-- A marker that no quote and no escape character is part of. -/
def Bare (marker : List Char) : Prop := ∀ c ∈ marker, isQuote c = false ∧ c ≠ escapeChar

theorem Bare.unquoted {marker : List Char} (h : Bare marker) (hne : marker ≠ [])
    (right : List Char) : Unquoted (marker ++ right) := by
  obtain ⟨c, cs, rfl⟩ := List.exists_cons_of_ne_nil hne
  intro d hd
  obtain rfl := Option.some.inj hd
  exact (h c List.mem_cons_self).1

/-- On both sides of a separator a quote is odd exactly if a literal is open there. -/
theorem Paired.quoted_eq {marker : List Char} (h : Paired (left ++ marker ++ right))
    (hmarker : Bare marker) (hne : marker ≠ []) :
    Span.quoted left right = (Stream.openBehind none left).isSome := by
  rcases h.cut (List.append_assoc _ _ _) (hmarker.unquoted hne right)
    (nofun : none = some escapeChar → _) with
    ⟨hopen, heven⟩ | ⟨q, body, rest, hq, hopen, hodd, hright, hwithin, hlast, hrest⟩
  · have hsingle := heven '\x27' rfl
    have hdouble := heven '\x22' rfl
    rw [hopen, Span.quoted, List.any_cons, List.any_cons, List.any_nil, hsingle, hdouble]
    rfl
  · obtain ⟨behind, rfl, hrightEq⟩ : ∃ behind, body = marker ++ behind ∧
        right = behind ++ q :: rest := by
      rcases List.append_eq_append_iff.mp hright with ⟨behind, rfl, hbehind⟩ |
        ⟨behind, rfl, hbehind⟩
      · exact ⟨behind, rfl, hbehind⟩
      · cases behind with
        | nil => exact ⟨[], by simp, hbehind.symm⟩
        | cons c cs =>
          obtain ⟨rfl, -⟩ := List.cons.inj hbehind
          have hnot := (hmarker q (List.mem_append_right _ List.mem_cons_self)).1
          rw [hq] at hnot
          exact absurd hnot nofun
    have hmarkerLast : marker.getLast? ≠ some escapeChar := fun h =>
      (hmarker _ (List.mem_of_getLast? h)).2 rfl
    have hbehind : behind.getLast? ≠ some escapeChar := by
      intro h
      rw [List.getLast?_append, h] at hlast
      exact hlast rfl
    have hcount : Span.unescapedCount q none right % 2 = 1 := by
      rw [hrightEq, Span.unescapedCount_append,
        (hwithin.of_append fun h => absurd h hmarkerLast).2.unescapedCount_eq hq,
        Span.unescapedCount_cons_self (by rwa [Option.or_none])]
      have heven := hrest.even_unescapedCount hq fun h => absurd h (some_ne_escapeChar hq)
      omega
    rw [hopen, Option.isSome_some, Span.quoted, List.any_eq_true]
    refine ⟨q, ?_, by rw [hodd, hcount]; rfl⟩
    simpa [isQuote] using hq

namespace Span

variable {before after front spans : List Span} {s : Span}

/-- What becomes of a span between two texts: a separator among quotes is text
again, but not the last span. -/
def demoted (left : List Char) (s : Span) (after : List Span) : Span :=
  if !after.isEmpty && quoted left (after.flatMap Span.text) then plain s.text else s

theorem text_demoted (left : List Char) (s : Span) (after : List Span) :
    (demoted left s after).text = s.text := by
  unfold demoted
  split <;> rfl

theorem demote_cons (left : List Char) (s : Span) (after : List Span) :
    demote left (s :: after) = demoted left s after :: demote (left ++ s.text) after := by
  cases after <;> rfl

theorem demote_append (left : List Char) (before : List Span) (s : Span) (after : List Span) :
    ∃ front, front.length = before.length ∧ front.flatMap Span.text = before.flatMap Span.text ∧
      demote left (before ++ s :: after) =
        front ++ demoted (left ++ before.flatMap Span.text) s after ::
          demote (left ++ before.flatMap Span.text ++ s.text) after := by
  induction before generalizing left with
  | nil =>
    refine ⟨[], rfl, rfl, ?_⟩
    rw [List.flatMap_nil, List.append_nil]
    exact demote_cons left s after
  | cons u before ih =>
    obtain ⟨front, hlength, htext, hdemote⟩ := ih (left ++ u.text)
    refine ⟨demoted left u (before ++ s :: after) :: front, by
      rw [List.length_cons, hlength, List.length_cons], ?_, ?_⟩
    · rw [List.flatMap_cons, htext, List.flatMap_cons, text_demoted]
    · rw [List.cons_append, demote_cons, hdemote, List.flatMap_cons, List.append_assoc left]
      rfl

/-- Every separator that is left was there, and was not among quotes. -/
theorem exists_of_demote {left : List Char} (hs : s.isSeparator = true)
    (h : demote left spans = front ++ s :: after) : ∃ before after, spans = before ++ s :: after ∧
      before.flatMap Span.text = front.flatMap Span.text ∧
      demoted (left ++ before.flatMap Span.text) s after = s := by
  induction spans generalizing left front with
  | nil => exact absurd h.symm (List.append_ne_nil_of_right_ne_nil _ (List.cons_ne_nil _ _))
  | cons u rest ih =>
    rw [demote_cons] at h
    cases front with
    | nil =>
      have hu := (List.cons.inj h).1
      obtain rfl : u = s := by
        rw [← hu] at hs
        rw [← hu, demoted]
        rw [demoted] at hs
        split at hs
        · exact absurd hs nofun
        · next hnot => rw [if_neg hnot]
      exact ⟨[], rest, rfl, rfl, by rwa [List.flatMap_nil, List.append_nil]⟩
    | cons v front =>
      obtain ⟨rfl, htail⟩ := List.cons.inj h
      obtain ⟨before, behind, rfl, htext, hkept⟩ := ih htail
      refine ⟨u :: before, behind, rfl, ?_, by rwa [List.flatMap_cons, ← List.append_assoc]⟩
      rw [List.flatMap_cons, htext, List.flatMap_cons, text_demoted]

theorem merge_append_separator (hs : s.isSeparator = true) (before after : List Span) :
    merge (before ++ s :: after) = merge before ++ s :: merge after := by
  induction before with
  | nil =>
    rw [List.nil_append, merge, merge]
    split
    · next hnil => rw [hnil]; rfl
    · next t ts hcons => rw [hs, Bool.true_or, if_pos rfl, hcons]; rfl
  | cons u before ih =>
    rw [List.cons_append, merge, ih, merge]
    cases merge before with
    | nil => simp [hs]
    | cons t ts =>
      simp only [List.cons_append]
      split <;> rfl

/-- Every separator that is left was there before merging. -/
theorem exists_of_merge (hs : s.isSeparator = true) (h : merge spans = before ++ s :: after) :
    ∃ before' after', spans = before' ++ s :: after' ∧
      before'.flatMap Span.text = before.flatMap Span.text := by
  induction spans generalizing before with
  | nil => exact absurd h.symm (List.append_ne_nil_of_right_ne_nil _ (List.cons_ne_nil _ _))
  | cons u rest ih =>
    rw [merge] at h
    split at h
    · cases before with
      | nil =>
        obtain ⟨rfl, -⟩ := List.cons.inj h
        exact ⟨[], rest, rfl, rfl⟩
      | cons v before =>
        exact absurd (List.cons.inj h).2.symm
          (List.append_ne_nil_of_right_ne_nil _ (List.cons_ne_nil _ _))
    · next t ts hmerge =>
      split at h
      · cases before with
        | nil =>
          obtain ⟨rfl, -⟩ := List.cons.inj h
          exact ⟨[], rest, rfl, rfl⟩
        | cons v before =>
          obtain ⟨rfl, htail⟩ := List.cons.inj h
          obtain ⟨before', after', rfl, htext⟩ := ih (hmerge.trans htail)
          exact ⟨u :: before', after', rfl, by rw [List.flatMap_cons, htext, List.flatMap_cons]⟩
      · cases before with
        | nil =>
          obtain ⟨rfl, -⟩ := List.cons.inj h
          cases hs
        | cons v before =>
          obtain ⟨rfl, htail⟩ := List.cons.inj h
          have hrest : merge rest = (t :: before) ++ s :: after :=
            hmerge.trans (congrArg (t :: ·) htail)
          obtain ⟨before', after', rfl, htext⟩ := ih hrest
          refine ⟨u :: before', after', rfl, ?_⟩
          rw [List.flatMap_cons, htext, List.flatMap_cons, List.flatMap_cons, ← List.append_assoc]
          rfl

theorem separator_of_mem_ofText (h : s ∈ ofText text) : s.separator = none := by
  cases text with
  | nil => exact absurd h List.not_mem_nil
  | cons c cs =>
    obtain rfl := List.mem_singleton.mp h
    rfl

/-- A piece of a text that was cut is a text, or the separator with what was cut out. -/
theorem plain_or_cut_of_mem_splitText {sep : TokenType} {fuel : Nat}
    (h : s ∈ splitText sep fuel text) : s.separator = none ∨
      ∃ part cut, sep.kind.cut? part = some cut ∧ s = ⟨cut.marker, some sep⟩ := by
  induction fuel generalizing text with
  | zero => exact .inl (separator_of_mem_ofText h)
  | succ fuel ih =>
    cases text with
    | nil => exact absurd h List.not_mem_nil
    | cons c cs =>
      rw [splitText] at h
      split at h
      · obtain rfl := List.mem_singleton.mp h
        exact .inl rfl
      · next cut hcut =>
        rcases List.mem_append.mp h with h | h
        · exact ih h
        · rcases List.mem_cons.mp h with rfl | h
          · exact .inr ⟨c :: cs, cut, hcut, rfl⟩
          · exact ih h

theorem quoted_nil (left : List Char) : quoted left [] = false := by
  simp [quoted, unescapedCount]

end Span

namespace Splitter

variable {sp : Splitter} {before after : List Span} {s : Span}

/-- All separators are markers without quotes and escape characters. -/
def BareMarkers (sp : Splitter) : Prop :=
  ∀ sep ∈ sp.separators, ∃ marker tight, sep.kind = .separator marker tight ∧ Bare marker.toList

theorem BareMarkers.slices (h : sp.BareMarkers) : ∀ sep ∈ sp.separators, sep.kind.Slices := by
  intro sep hsep
  obtain ⟨marker, tight, hkind, -⟩ := h sep hsep
  rw [hkind]
  trivial

/-- What is cut out is a marker. -/
theorem BareMarkers.bare (h : sp.BareMarkers) (hmem : s ∈ sp.cutUp text)
    (hs : s.isSeparator = true) : Bare s.text := by
  have hall : ∀ s ∈ sp.cutUp text, s.isSeparator = true → Bare s.text := by
    apply cutUp_induct (P := fun spans => ∀ s ∈ spans, s.isSeparator = true → Bare s.text)
    · intro s hs hsep
      rw [Span.isSeparator, Span.separator_of_mem_ofText hs] at hsep
      cases hsep
    · intro sep hsep spans hspans s hs hseparator
      obtain ⟨u, hu, hs⟩ := List.mem_flatMap.mp hs
      split at hs
      · obtain rfl := List.mem_singleton.mp hs
        exact hspans s hu hseparator
      · obtain ⟨marker, tight, hkind, hbare⟩ := h sep hsep
        rcases Span.plain_or_cut_of_mem_splitText hs with hnone | ⟨part, cut, hcut, rfl⟩
        · rw [Span.isSeparator, hnone] at hseparator
          cases hseparator
        · rw [hkind] at hcut
          rw [(TokenKind.eq_of_cut?_separator hcut).1]
          exact hbare
  exact hall s hmem hs

/-- A separator is turned into text again exactly where a literal is open. -/
theorem BareMarkers.demoted_eq (h : sp.BareMarkers) (hpaired : Paired text)
    (hcut : sp.cutUp text = before ++ s :: after) (hs : s.isSeparator = true) :
    Span.demoted (before.flatMap Span.text) s after =
      if (Stream.openBehind none (before.flatMap Span.text)).isSome then Span.plain s.text
      else s := by
  have hmem : s ∈ sp.cutUp text := by
    rw [hcut]
    exact List.mem_append_right _ List.mem_cons_self
  have htext := flatMap_text_cutUp h.slices text
  rw [hcut, List.flatMap_append, List.flatMap_cons, ← List.append_assoc] at htext
  have hne : text ≠ [] := by
    rintro rfl
    have hnil : sp.cutUp [] = [] :=
      cutUp_induct (P := fun spans => spans = []) rfl (by rintro sep - _ rfl; rfl)
    rw [hnil] at hmem
    exact absurd hmem List.not_mem_nil
  rw [← htext] at hpaired
  have hquoted := hpaired.quoted_eq (h.bare hmem hs) ((sp.filled_cutUp hne).text_ne_nil s hmem)
  rw [Span.demoted, ← hquoted]
  cases after with
  | nil => rw [List.flatMap_nil, Span.quoted_nil]; rfl
  | cons t rest => rfl

/-- A separator that is cut out of a text is turned into text again exactly where a literal is open,
and those outside of literals are the ones that split the text. -/
theorem separates_iff (hmarkers : sp.BareMarkers) (haware : sp.literalAware = true)
    (hpaired : Paired text) (hcut : sp.cutUp text = before ++ s :: after)
    (hs : s.isSeparator = true) :
    ((Span.demote [] (sp.cutUp text))[before.length]? = some (Span.plain s.text) ↔
        (Stream.openBehind none (before.flatMap Span.text)).isSome = true) ∧
      ((∃ before' after', sp.split text = before' ++ s :: after' ∧
          before'.flatMap Span.text = before.flatMap Span.text) ↔
        Stream.openBehind none (before.flatMap Span.text) = none) := by
  have hsplit : sp.split text = Span.merge (Span.demote [] (sp.cutUp text)) := by
    rw [split_eq, if_pos haware]
  have hplain : s ≠ Span.plain s.text := fun h => absurd (h ▸ hs) nofun
  obtain ⟨front, hlength, htext, hdemote⟩ := Span.demote_append [] before s after
  rw [List.nil_append, hmarkers.demoted_eq hpaired hcut hs, ← hcut] at hdemote
  refine ⟨?_, ?_, ?_⟩
  · rw [hdemote, ← hlength, List.getElem?_append_right (Nat.le_refl _), Nat.sub_self,
      List.getElem?_cons_zero, Option.some.injEq]
    split
    · next hopen => exact ⟨fun _ => hopen, fun _ => rfl⟩
    · next hopen => exact ⟨fun h => absurd h hplain, fun h => absurd h hopen⟩
  · rintro ⟨before', after', hspans, htext'⟩
    rw [hsplit] at hspans
    obtain ⟨front', behind, hdemote', hfront⟩ := Span.exists_of_merge hs hspans
    obtain ⟨first, rest, hcut', htextFirst, hkept⟩ := Span.exists_of_demote hs hdemote'
    rw [List.nil_append, hmarkers.demoted_eq hpaired hcut' hs, htextFirst, hfront, htext'] at hkept
    by_contra hopen
    rw [← ne_eq, Option.ne_none_iff_isSome] at hopen
    rw [if_pos hopen] at hkept
    exact hplain hkept.symm
  · intro hopen
    rw [hopen, Option.isSome_none, if_neg Bool.false_ne_true] at hdemote
    refine ⟨Span.merge front, Span.merge (Span.demote (before.flatMap Span.text ++ s.text) after),
      ?_, (Span.flatMap_text_merge front).trans htext⟩
    rw [hsplit, hdemote, Span.merge_append_separator hs]

end Splitter

namespace Sample

def dash : TokenType := ⟨1, .separator "-" false⟩

def dashes : Splitter := { separators := [dash], literalAware := true }

theorem bareMarkers_dashes : dashes.BareMarkers := by
  intro sep hsep
  obtain rfl := List.mem_singleton.mp hsep
  exact ⟨"-", false, rfl, List.forall_mem_singleton.mpr ⟨rfl, by decide⟩⟩

/-- A dash in a literal and one behind it. -/
theorem separates_iff_dashes : ∃ before after,
    dashes.cutUp "'x-y'-z".toList = .plain "'x".toList :: ⟨['-'], some dash⟩ :: after ∧
    dashes.cutUp "'x-y'-z".toList = before ++ [⟨['-'], some dash⟩, .plain ['z']] ∧
    (Span.demote [] (dashes.cutUp "'x-y'-z".toList))[1]? = some (.plain ['-']) ∧
    ∃ before' after', dashes.split "'x-y'-z".toList = before' ++ ⟨['-'], some dash⟩ :: after' ∧
      before'.flatMap Span.text = "'x-y'".toList := by
  have hplain : ∀ c ∈ ['x', '-', 'y', 'z'], c ≠ escapeChar := by simp [escapeChar]
  have hwithin : Within '\x27' ['x', '-', 'y'] :=
    .char (by decide) (fun h => (hplain 'x' (by decide) h).elim) <|
      .char (by decide) (fun h => (hplain '-' (by decide) h).elim) <|
        .char (by decide) (fun h => (hplain 'y' (by decide) h).elim) .nil
  have hpaired : Paired "'x-y'-z".toList := by
    refine @Paired.literal '\x27' ['x', '-', 'y'] ['-', 'z'] rfl hwithin (by decide) ?_ ?_
    · intro k hk _
      have hk' : k = '\x27' ∨ k = '\x22' := by simpa [isQuote] using hk
      rcases hk' with rfl | rfl <;> rfl
    · exact .char rfl (fun h => (hplain '-' (by decide) h).elim) <|
        .char rfl (fun h => (hplain 'z' (by decide) h).elim) .nil
  have hinside : dashes.cutUp "'x-y'-z".toList = [.plain "'x".toList] ++ ⟨['-'], some dash⟩ ::
      [.plain "y'".toList, ⟨['-'], some dash⟩, .plain ['z']] := rfl
  have houtside : dashes.cutUp "'x-y'-z".toList = [.plain "'x".toList, ⟨['-'], some dash⟩,
      .plain "y'".toList] ++ ⟨['-'], some dash⟩ :: [.plain ['z']] := rfl
  refine ⟨_, _, hinside, houtside, ?_, ?_⟩
  · exact (Splitter.separates_iff bareMarkers_dashes rfl hpaired hinside rfl).1.mpr rfl
  · exact (Splitter.separates_iff bareMarkers_dashes rfl hpaired houtside rfl).2.mpr rfl

/-- Neither of these literals is open at the dash between them, but each holds one
quote of the other kind. -/
theorem dash_lost_between_literals :
    ¬∀ (sp : Splitter) (text : List Char) (before after : List Span) (s : Span), sp.BareMarkers →
    sp.literalAware = true → Stream.openBehind none text = none →
    sp.cutUp text = before ++ s :: after → s.isSeparator = true →
      ((Span.demote [] (sp.cutUp text))[before.length]? = some (Span.plain s.text) ↔
        (Stream.openBehind none (before.flatMap Span.text)).isSome = true) := by
  intro hall
  have hcut : dashes.cutUp "'a\x22b'-'c\x22d'".toList =
      [.plain "'a\x22b'".toList] ++ ⟨['-'], some dash⟩ :: [.plain "'c\x22d'".toList] := rfl
  have hiff := hall dashes _ _ _ _ bareMarkers_dashes rfl rfl hcut rfl
  exact absurd (hiff.mp rfl) (by decide)

end Sample

end GrammarGraph
