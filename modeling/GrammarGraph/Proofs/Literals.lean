import GrammarGraph.Proofs.Origins
import GrammarGraph.Proofs.Words

/-!
# Tokens of the literal type

A token of the literal type starts with a quote and ends with the same one.  It is one literal, in
the way a stream reads its input, exactly if none of the quotes in between closes it
(`oneLiteral_iff`).  This is not checked, so two literals without a separator between them are one
token (`Sample.touching_literals`).  Where no text between separators holds more than one literal,
each token of the literal type is one (`Lexer.oneLiteral_of_mem_results`).
-/

namespace GrammarGraph

variable {text left right body inner rest before after : List Char} {q c : Char}

/-! ## One literal -/

/-- A literal is opened by the first character and closed by the last one and not before. -/
structure OneLiteral (q : Char) (text : List Char) : Prop where
  head : text.head? = some q
  openBehind : ∀ front behind, text = front ++ behind → front ≠ [] → behind ≠ [] →
    Stream.openBehind none front = some q
  closed : Stream.openBehind none text = none

namespace Within

/-- Everywhere in a literal its quote is open. -/
theorem openBehind_of_append (h : Within q body) (hq : isQuote q = true) :
    ∀ {left right : List Char},
    body = left ++ right → Stream.openBehind (some q) left = some q := by
  induction h with
  | nil =>
    intro left right heq
    obtain ⟨rfl, -⟩ := List.append_eq_nil_iff.mp heq.symm
    rfl
  | @escaped d body hd _ ih =>
    intro left right heq
    rcases left with _ | ⟨e, _ | ⟨e', left⟩⟩
    · rfl
    · obtain ⟨rfl, -⟩ := List.cons.inj heq
      rw [Stream.openBehind, if_neg (ne_escapeChar_of_isQuote hq).symm]
    · obtain ⟨rfl, htail⟩ := List.cons.inj heq
      obtain ⟨rfl, hbody⟩ := List.cons.inj htail
      rw [Stream.openBehind_escaped hd]
      exact ih hbody
  | @char c body hc hescape _ ih =>
    intro left right heq
    rcases left with _ | ⟨e, _ | ⟨d, left⟩⟩
    · rfl
    · obtain ⟨rfl, -⟩ := List.cons.inj heq
      rw [Stream.openBehind, if_neg hc]
    · obtain ⟨rfl, htail⟩ := List.cons.inj heq
      rw [htail] at hescape
      rw [Stream.openBehind_char hc (Unquoted.not_escapes hescape)]
      exact ih htail

end Within

theorem ne_of_openBehind_singleton (h : Stream.openBehind (some q) [c] = some q) : c ≠ q := by
  rintro rfl
  rw [Stream.openBehind, if_pos rfl] at h
  cases h

/-- A text behind a quote that is open up to the last character and closed by that
is what a literal holds. -/
theorem within_of_openBehind (hq : isQuote q = true) : ∀ {inner : List Char}, (∀ front behind,
      inner ++ [q] = front ++ behind → behind ≠ [] → Stream.openBehind (some q) front = some q) →
      Stream.openBehind (some q) (inner ++ [q]) = none → Within q inner ∧
      inner.getLast? ≠ some escapeChar
  | [], _, _ => ⟨.nil, (Option.some_ne_none _).symm⟩
  | [c], hopen, hclosed => by
    have hc : c ≠ q := ne_of_openBehind_singleton (hopen [c] [q] rfl (List.cons_ne_nil _ _))
    have hescape : c ≠ escapeChar := by
      rintro rfl
      rw [List.singleton_append, Stream.openBehind_escaped hq] at hclosed
      cases hclosed
    exact ⟨.char hc (fun h => absurd h hescape) .nil, fun h => hescape (Option.some.inj h)⟩
  | c :: d :: inner, hopen, hclosed => by
    have hc : c ≠ q :=
      ne_of_openBehind_singleton (hopen [c] (d :: inner ++ [q]) rfl (List.cons_ne_nil _ _))
    rw [List.cons_append, List.cons_append] at hclosed
    by_cases hpair : (c = escapeChar && isQuote d) = true
    · -- an escaped quote is passed over together with the escape character
      obtain ⟨hc', hd⟩ := Bool.and_eq_true_iff.mp hpair
      obtain rfl := of_decide_eq_true hc'
      rw [Stream.openBehind_escaped hd] at hclosed
      have hopen' : ∀ front behind, inner ++ [q] = front ++ behind → behind ≠ [] →
          Stream.openBehind (some q) front = some q := by
        intro front behind heq hne
        rw [← Stream.openBehind_escaped hd]
        exact hopen (escapeChar :: d :: front) behind (congrArg (escapeChar :: d :: ·) heq) hne
      obtain ⟨hwithin, hlast⟩ := within_of_openBehind hq hopen' hclosed
      refine ⟨.escaped hd hwithin, ?_⟩
      rw [List.getLast?_cons_cons]
      cases inner with
      | nil => exact some_ne_escapeChar hd
      | cons e inner => rwa [List.getLast?_cons_cons]
    · rw [Stream.openBehind_char hc hpair] at hclosed
      have hopen' : ∀ front behind, d :: inner ++ [q] = front ++ behind → behind ≠ [] →
          Stream.openBehind (some q) front = some q := by
        intro front behind heq hne
        have hfront := hopen (c :: front) behind (congrArg (c :: ·) heq) hne
        cases front with
        | nil => rfl
        | cons e front =>
          obtain rfl : d = e := (List.cons.inj heq).1
          rwa [Stream.openBehind_char hc hpair] at hfront
      obtain ⟨hwithin, hlast⟩ := within_of_openBehind hq hopen' hclosed
      refine ⟨.char hc ?_ hwithin, by rwa [List.getLast?_cons_cons]⟩
      rintro rfl e he
      obtain rfl : d = e := Option.some.inj he
      exact Bool.eq_false_iff.mpr fun hd => hpair (by rw [hd]; decide)

/-- A text between two of the same quotes is one literal if none of the quotes in
it closes the first one. -/
theorem oneLiteral_iff (hq : isQuote q = true) :
    OneLiteral q (q :: (inner ++ [q])) ↔ Within q inner ∧ inner.getLast? ≠ some escapeChar := by
  have hopening :
      ∀ front, Stream.openBehind none (q :: front) = Stream.openBehind (some q) front := by
    intro front
    rw [Stream.openBehind, if_pos hq]
  constructor
  · rintro ⟨-, hopen, hclosed⟩
    rw [hopening] at hclosed
    refine within_of_openBehind hq (fun front behind heq hne => ?_) hclosed
    rw [← hopening]
    exact hopen (q :: front) behind (congrArg (q :: ·) heq) (List.cons_ne_nil _ _) hne
  · rintro ⟨hwithin, hlast⟩
    refine ⟨rfl, ?_, ?_⟩
    · intro front behind heq hfront hbehind
      obtain ⟨c, front, rfl⟩ := List.exists_cons_of_ne_nil hfront
      obtain ⟨rfl, htail⟩ := List.cons.inj heq
      rw [hopening]
      obtain ⟨behind, d, rfl⟩ := List.eq_nil_or_concat behind |>.resolve_left hbehind
      have hinner : inner ++ [q] = (front ++ behind) ++ [d] := by
        rw [htail, List.append_assoc, ← List.concat_eq_append]
        rfl
      exact hwithin.openBehind_of_append hq (List.append_inj' hinner rfl).1
    · rw [hopening, hwithin.openBehind_literal hq hlast]
      rfl

/-- A text that starts and ends with the same quote. -/
theorem exists_of_isLiteralText (h : isLiteralText text = true) :
    ∃ q inner, isQuote q = true ∧ text = q :: (inner ++ [q]) := by
  cases text with
  | nil => exact absurd h nofun
  | cons c cs =>
    obtain ⟨hc, hlast⟩ := Bool.and_eq_true_iff.mp h
    obtain ⟨inner, rfl⟩ := List.getLast?_eq_some_iff.mp (beq_iff_eq.mp hlast)
    exact ⟨c, inner, hc, rfl⟩

/-! ## Texts with at most one literal -/

/-- A text without quotes. -/
def Quoteless (text : List Char) : Prop := ∀ c ∈ text, isQuote c = false

/-- No quote, or one literal among text without quotes. -/
def Solitary (text : List Char) : Prop :=
  Quoteless text ∨ ∃ q before body after, isQuote q = true ∧
    text = before ++ (q :: (body ++ [q])) ++ after ∧ Quoteless before ∧
    before.getLast? ≠ some escapeChar ∧ Within q body ∧ body.getLast? ≠ some escapeChar ∧
    Quoteless after

theorem Quoteless.not_mem (h : Quoteless text) (hq : isQuote q = true) : q ∉ text := fun hmem =>
  absurd ((h q hmem).symm.trans hq) nofun

theorem Quoteless.of_infix (h : Quoteless text) (hpart : body <:+: text) :
    Quoteless body := fun c hc =>
  h c (hpart.subset hc)

theorem Bare.quoteless {marker : List Char} (h : Bare marker) : Quoteless marker :=
  fun c hc => (h c hc).1

/-- The only literal of a text that starts and ends with the same quote is the text. -/
theorem Solitary.oneLiteral (h : Solitary text) (htext : isLiteralText text = true) :
    ∃ q, OneLiteral q text := by
  obtain ⟨k, inner, hk, rfl⟩ := exists_of_isLiteralText htext
  obtain hnone | ⟨q, before, body, after, hq, heq, hbefore, -, hbody, hlast, hafter⟩ := h
  · exact absurd List.mem_cons_self (hnone.not_mem hk)
  · obtain rfl : before = [] := by
      cases before with
      | nil => rfl
      | cons c before =>
        obtain ⟨rfl, -⟩ := List.cons.inj heq
        exact absurd List.mem_cons_self (hbefore.not_mem hk)
    obtain rfl : after = [] := by
      rcases List.eq_nil_or_concat after with rfl | ⟨after, d, rfl⟩
      · rfl
      · have hend := congrArg List.getLast? heq
        rw [← List.cons_append, List.getLast?_concat, List.concat_eq_append, ← List.append_assoc,
          List.getLast?_concat] at hend
        obtain rfl := Option.some.inj hend
        have hmem : k ∈ after.concat k := by simp
        exact absurd hmem (hafter.not_mem hk)
    rw [List.nil_append, List.append_nil] at heq
    exact ⟨q, heq ▸ (oneLiteral_iff hq).mpr ⟨hbody, hlast⟩⟩

/-- What is left of a text without quotes at its start. -/
theorem Solitary.of_append_left {marker : List Char} (h : Solitary (marker ++ rest))
    (hmarker : Quoteless marker) : Solitary rest := by
  obtain hnone | ⟨q, before, body, after, hq, heq, hbefore, hescape, hliteral⟩ := h
  · exact .inl (hnone.of_infix (List.suffix_append _ _).isInfix)
  · rw [List.append_assoc] at heq
    rcases List.append_eq_append_iff.mp heq with ⟨before', rfl, rfl⟩ | ⟨marker', rfl, hliteral'⟩
    · refine .inr ⟨q, before', body, after, hq, by rw [List.append_assoc], ?_, ?_, hliteral⟩
      · exact hbefore.of_infix (List.suffix_append _ _).isInfix
      · exact fun hlast => hescape (getLast?_append_of_eq_some marker hlast)
    · cases marker' with
      | nil => exact .inr ⟨q, [], body, after, hq, hliteral'.symm, nofun, nofun, hliteral⟩
      | cons c marker' =>
        obtain rfl : c = q := (List.cons.inj hliteral').1.symm
        exact absurd (List.mem_append_right _ List.mem_cons_self) (hmarker.not_mem hq)

/-- What is left of a text without quotes at its end. -/
theorem Solitary.of_append_right {marker : List Char} (h : Solitary (rest ++ marker))
    (hmarker : Quoteless marker) : Solitary rest := by
  obtain hnone | ⟨q, before, body, after, hq, heq, hbefore, hescape, hbody, hlast, hafter⟩ := h
  · exact .inl (hnone.of_infix (List.prefix_append _ _).isInfix)
  · rcases List.append_eq_append_iff.mp heq with ⟨marker', hliteral, rfl⟩ | ⟨after', rfl, rfl⟩
    · rcases List.eq_nil_or_concat marker' with rfl | ⟨marker', d, rfl⟩
      · rw [List.append_nil] at hliteral
        exact .inr ⟨q, before, body, [], hq, by rw [List.append_nil, hliteral], hbefore, hescape,
          hbody, hlast, nofun⟩
      · have hend := congrArg List.getLast? hliteral
        rw [← List.cons_append, ← List.append_assoc, List.getLast?_concat, List.concat_eq_append,
          ← List.append_assoc, List.getLast?_concat] at hend
        obtain rfl := Option.some.inj hend
        have hmem : q ∈ marker'.concat q ++ after := by simp
        exact absurd hmem (hmarker.not_mem hq)
    · exact .inr ⟨q, before, body, after', hq, rfl, hbefore, hescape, hbody, hlast,
        hafter.of_infix (List.prefix_append _ _).isInfix⟩

/-! ## Splitting -/

namespace Span

/-- A marker stands in front of the only literal, in it or behind it. -/
theorem exists_of_cut_around {marker : List Char} (hq : isQuote q = true) (hmarker : Bare marker)
    (hne : marker ≠ []) (h : left ++ (marker ++ right) = before ++ (q :: (body ++ [q]) ++ after)) :
    (∃ rest, before = left ++ marker ++ rest) ∨ (∃ rest, after = rest ++ marker ++ right) ∨
    ∃ front behind, left = before ++ q :: front ∧ right = behind ++ [q] ++ after ∧
      body = front ++ (marker ++ behind) := by
  have hnot : q ∉ marker := hmarker.quoteless.not_mem hq
  rcases List.append_eq_append_iff.mp h with ⟨rest, rfl, hrest⟩ | ⟨front, rfl, hfront⟩
  · rcases List.append_eq_append_iff.mp hrest with ⟨rest', rfl, -⟩ | ⟨rest', rfl, hliteral⟩
    · exact .inl ⟨rest', (List.append_assoc _ _ _).symm⟩
    · cases rest' with
      | nil => exact .inl ⟨[], by simp⟩
      | cons c rest' =>
        obtain rfl : q = c := (List.cons.inj hliteral).1
        exact absurd (List.mem_append_right _ List.mem_cons_self) hnot
  · rcases List.append_eq_append_iff.mp hfront with ⟨rest, rfl, rfl⟩ | ⟨rest, hliteral, hrest⟩
    · exact .inr (.inl ⟨rest, (List.append_assoc _ _ _).symm⟩)
    · rcases List.append_eq_append_iff.mp hrest with ⟨behind, rfl, rfl⟩ | ⟨behind, rfl, rfl⟩
      · obtain ⟨front', behind', rfl, rfl, rfl⟩ :=
          exists_of_cut_literal hq hmarker hne hliteral.symm
        exact .inr (.inr ⟨front', behind', rfl, rfl, rfl⟩)
      · rcases List.eq_nil_or_concat rest with rfl | ⟨rest, d, rfl⟩
        · exact .inr (.inl ⟨[], by simp⟩)
        · have hend := congrArg List.getLast? hliteral
          rw [← List.cons_append, List.getLast?_concat, List.concat_eq_append, ← List.append_assoc,
            List.getLast?_concat] at hend
          obtain rfl := Option.some.inj hend
          have hmem : q ∈ rest.concat q ++ behind := by simp
          exact absurd hmem hnot

theorem unescapedCount_of_quoteless (h : Quoteless text) (hq : isQuote q = true)
    (previous : Option Char) : unescapedCount q previous text = 0 := by
  induction text generalizing previous with
  | nil => rfl
  | cons c cs ih =>
    obtain ⟨hc, hcs⟩ := List.forall_mem_cons.mp h
    have hne : c ≠ q := by
      rintro rfl
      exact absurd (hc.symm.trans hq) nofun
    rw [unescapedCount_cons_of_ne hne, ih hcs]

end Span

namespace Splitter

variable {sp : Splitter} {front back : List Span} {s : Span}

section

variable (hsp : sp.BareMarkers) (haware : sp.literalAware = true) (hq : isQuote q = true)
  (hbefore : Quoteless before) (hescape : before.getLast? ≠ some escapeChar) (hbody : Within q body)
  (hlast : body.getLast? ≠ some escapeChar) (hafter : Quoteless after)

include hsp haware hq hbefore hescape hbody hlast hafter

/-- No separator is left in the only literal of a text. -/
theorem outside_of_split
    (hsplit : sp.split (before ++ (q :: (body ++ [q])) ++ after) = front ++ s :: back)
    (hs : s.isSeparator = true) : (∃ rest, before = front.flatMap Span.text ++ s.text ++ rest) ∨
      ∃ rest, after = rest ++ s.text ++ back.flatMap Span.text := by
  have hne : before ++ (q :: (body ++ [q])) ++ after ≠ [] := by simp
  have htext := flatMap_text_split hsp.slices (before ++ (q :: (body ++ [q])) ++ after)
  have hcutUp := flatMap_text_cutUp hsp.slices (before ++ (q :: (body ++ [q])) ++ after)
  rw [hsplit, List.flatMap_append, List.flatMap_cons] at htext
  rw [split_eq, if_pos haware] at hsplit
  obtain ⟨demoted, _, hdemote, hdemoted⟩ := Span.exists_of_merge hs hsplit
  obtain ⟨first, last, hcut, hfirst, hkept⟩ := Span.exists_of_demote hs hdemote
  have hmem : s ∈ sp.cutUp (before ++ (q :: (body ++ [q])) ++ after) := by
    rw [hcut]
    exact List.mem_append_right _ List.mem_cons_self
  have hbare := hsp.bare hmem hs
  have hmarker := (sp.filled_cutUp hne).text_ne_nil s hmem
  rw [hcut, List.flatMap_append, List.flatMap_cons, hfirst, hdemoted, ← htext] at hcutUp
  have hback : last.flatMap Span.text = back.flatMap Span.text :=
    List.append_cancel_left (List.append_cancel_left hcutUp)
  rw [List.append_assoc before] at htext
  rcases Span.exists_of_cut_around hq hbare hmarker htext with hfront | hbehind |
    ⟨front', behind', hleft, hright, rfl⟩
  · exact .inl hfront
  · exact .inr hbehind
  · exfalso
    have hquoted : Span.quoted (before ++ q :: front') (behind' ++ q :: after) = true := by
      refine Span.quoted_of_within hq hbody hlast hbare hmarker before after ?_ hescape ?_
      · rw [Span.unescapedCount_of_quoteless hbefore hq]
      · rw [Span.unescapedCount_of_quoteless hafter hq]
    have hlast' : (!last.isEmpty) = true := by
      cases last with
      | nil =>
        rw [← hback] at hright
        exact absurd hright.symm (by simp)
      | cons => rfl
    rw [List.nil_append, hfirst, hdemoted, Span.demoted, hlast', hback, hleft, hright,
      List.append_assoc, List.singleton_append, hquoted] at hkept
    rw [← hkept] at hs
    cases hs

/-- A piece between separators starts in front of the only literal, or all of it is behind. -/
theorem starts_of_split
    (hsplit : sp.split (before ++ (q :: (body ++ [q])) ++ after) = front ++ s :: back)
    (hplain : s.isSeparator = false) : (∃ rest, before = front.flatMap Span.text ++ rest) ∨
      ∃ rest, after = rest ++ (s.text ++ back.flatMap Span.text) := by
  rcases List.eq_nil_or_concat front with rfl | ⟨front, t, rfl⟩
  · exact .inl ⟨before, rfl⟩
  · rw [List.concat_eq_append] at hsplit
    have ht : t.isSeparator = true := by
      have hlink := (List.isChain_append.mp (hsplit ▸ apart_split sp _)).2.2 t (by simp) s (by simp)
      exact hlink.resolve_right (by rw [hplain]; exact Bool.false_ne_true)
    rw [← List.append_cons] at hsplit
    rw [List.concat_eq_append, List.flatMap_append, List.flatMap_singleton]
    rcases outside_of_split hsp haware hq hbefore hescape hbody hlast hafter hsplit
      ht with hfront | ⟨rest, rfl⟩
    · exact .inl hfront
    · exact .inr ⟨rest ++ t.text, by rw [List.flatMap_cons]⟩

/-- It ends behind the only literal, or all of it is in front. -/
theorem ends_of_split
    (hsplit : sp.split (before ++ (q :: (body ++ [q])) ++ after) = front ++ s :: back)
    (hplain : s.isSeparator = false) : (∃ rest, after = rest ++ back.flatMap Span.text) ∨
      ∃ rest, before = front.flatMap Span.text ++ s.text ++ rest := by
  cases back with
  | nil => exact .inl ⟨after, by simp⟩
  | cons t back =>
    have ht : t.isSeparator = true := by
      have hlink :=
        (List.isChain_cons_cons.mp (List.isChain_append.mp (hsplit ▸ apart_split sp _)).2.1).1
      exact hlink.resolve_left (by rw [hplain]; exact Bool.false_ne_true)
    have hsplit' := hsplit.trans (List.append_cons front s (t :: back))
    rw [List.flatMap_cons]
    rcases outside_of_split hsp haware hq hbefore hescape hbody hlast hafter hsplit'
      ht with ⟨rest, rfl⟩ | ⟨rest, rfl⟩
    · exact .inr ⟨t.text ++ rest, by simp⟩
    · exact .inl ⟨rest, List.append_assoc _ _ _⟩

end

/-- Splitting a text with at most one literal leaves texts with at most one literal. -/
theorem solitary_split (hsp : sp.BareMarkers) (haware : sp.literalAware = true) (h : Solitary text)
    (hs : s ∈ sp.split text) (hplain : s.isSeparator = false) : Solitary s.text := by
  have htext := flatMap_text_split hsp.slices text
  obtain hnone | ⟨q, before, body, after, hq, rfl, hbefore, hescape, hbody, hlast, hafter⟩ := h
  · rw [← htext] at hnone
    exact .inl (hnone.of_infix (List.infix_of_mem_flatten (List.mem_map_of_mem hs)))
  obtain ⟨front, back, hsplit⟩ := List.append_of_mem hs
  have hstart := starts_of_split hsp haware hq hbefore hescape hbody hlast hafter hsplit hplain
  have hend := ends_of_split hsp haware hq hbefore hescape hbody hlast hafter hsplit hplain
  rw [hsplit, List.flatMap_append, List.flatMap_cons] at htext
  rcases hstart with ⟨before', rfl⟩ | ⟨rest, rfl⟩
  · rcases hend with ⟨after', rfl⟩ | ⟨rest, hrest⟩
    · have hmiddle : s.text = before' ++ (q :: (body ++ [q])) ++ after' := by
        rw [List.append_assoc, List.append_assoc] at htext
        have hcancel := List.append_cancel_left htext
        rw [← List.append_assoc, ← List.append_assoc] at hcancel
        exact List.append_cancel_right hcancel
      refine .inr ⟨q, before', body, after', hq, hmiddle, ?_, ?_, hbody, hlast, ?_⟩
      · exact hbefore.of_infix (List.suffix_append _ _).isInfix
      · exact fun h => hescape (getLast?_append_of_eq_some _ h)
      · exact hafter.of_infix (List.prefix_append _ _).isInfix
    · rw [hrest] at hbefore
      exact .inl (hbefore.of_infix ⟨_, rest, rfl⟩)
  · exact .inl (hafter.of_infix ⟨rest, _, List.append_assoc _ _ _⟩)

end Splitter

/-! ## Tokens -/

theorem TokenKind.isLiteral_eq_false {kind : TokenKind}
    (h : kind.isSeparator || kind.isLeading || kind.isTrailing || kind.isKeyword || kind.isWord) :
    kind.isLiteral = false := by
  cases kind with
  | literal => exact absurd h nofun
  | _ => rfl

namespace Lexer

variable {lx : Lexer} {types : List TokenType} {token : Token} {P : List Char → Prop}

/-- If the token is a literal, the lexer knows its type, and the text starts and ends with the same
quote and has the property. -/
def Holds (lx : Lexer) (P : List Char → Prop) (token : Token) : Prop :=
  ∀ t ∈ token.types, t.kind.isLiteral = true → lx.literal.isSome = true ∧
    ∃ text, token.text = .ofList text ∧ isLiteralText text = true ∧ P text

/-- Where a property is kept by taking off markers and by splitting, the literals have
it if the pieces have it. -/
theorem Arises.holds (hlx : lx.Sorts types) (hleading : ∀ t ∈ lx.leading, ∀ text rest,
      t.kind.remainingRight? text = some rest → P text → P rest) (htrailing : ∀ t ∈ lx.trailing,
      ∀ text rest, t.kind.remainingLeft? text = some rest → P text → P rest)
    (hsplit : ∀ text, P text → ∀ s ∈ lx.splitter.split text, s.separator = none → P s.text)
    (h : lx.Arises text token)
    (htext : ∀ s ∈ lx.splitter.split text, s.separator = none → P s.text) : lx.Holds P token := by
  have hnot {text : List Char} {types : List TokenType} {before : Position}
      (htypes : ∀ t ∈ types, t.kind.isLiteral = false) :
      lx.Holds P (lx.token text types before) := by
    intro t ht hliteral
    exact absurd ((htypes t ht).symm.trans hliteral) nofun
  induction h with
  | separator hs hsep =>
    have hmem := (Splitter.separator_of_mem_split hs hsep).1
    exact hnot (List.forall_mem_singleton.mpr
      (TokenKind.isLiteral_eq_false (by simp [(hlx.separators _ hmem).2])))
  | literal hs hplain ht hliteral =>
    exact fun _ _ _ => ⟨Option.isSome_iff_exists.mpr ⟨_, ht⟩, _, rfl, hliteral, htext _ hs hplain⟩
  | leading ht =>
    exact hnot (List.forall_mem_singleton.mpr
      (TokenKind.isLiteral_eq_false (by simp [(hlx.leading _ ht).2])))
  | trailing ht =>
    exact hnot (List.forall_mem_singleton.mpr
      (TokenKind.isLiteral_eq_false (by simp [(hlx.trailing _ ht).2])))
  | behind hs hplain ht hrest _ ih =>
    exact ih (hsplit _ (hleading _ ht _ _ hrest (htext _ hs hplain)))
  | front hs hplain ht hrest _ ih =>
    exact ih (hsplit _ (htrailing _ ht _ _ hrest (htext _ hs hplain)))
  | plain =>
    refine hnot fun t ht => TokenKind.isLiteral_eq_false ?_
    rcases hlx.of_mem_plainTypes ht with h | h <;> simp [h]

/-- No quote and no escape character is part of a separator or of a marker next to a text. -/
structure BareMarkers (lx : Lexer) : Prop where
  splitter : lx.splitter.BareMarkers
  leading : ∀ t ∈ lx.leading, ∀ marker, t.kind = .leading marker → Bare marker.toList
  trailing : ∀ t ∈ lx.trailing, ∀ marker, t.kind = .trailing marker → Bare marker.toList

/-- A literal among text without quotes stays one. -/
theorem Arises.holds_solitary (hlx : lx.Sorts types) (hmarkers : lx.BareMarkers)
    (haware : lx.splitter.literalAware = true) (h : lx.Arises text token)
    (htext : ∀ s ∈ lx.splitter.split text, s.separator = none → Solitary s.text) :
    lx.Holds Solitary token := by
  refine h.holds hlx ?_ ?_ ?_ htext
  · intro t ht text rest hrest hsolitary
    obtain ⟨marker, hkind, rfl, -⟩ := TokenKind.exists_of_remainingRight? hrest
    exact hsolitary.of_append_left (hmarkers.leading t ht marker hkind).quoteless
  · intro t ht text rest hrest hsolitary
    obtain ⟨marker, hkind, rfl, -⟩ := TokenKind.exists_of_remainingLeft? hrest
    exact hsolitary.of_append_right (hmarkers.trailing t ht marker hkind).quoteless
  · intro text hsolitary s hs hplain
    exact Splitter.solitary_split hmarkers.splitter haware hsolitary hs
      (by rw [Span.isSeparator, hplain]; rfl)

/-- A token of the literal type starts and ends with the same quote, and it is one literal if none
of the quotes in between closes it.  That is so where no piece of a chunk between separators holds
more than one literal. -/
theorem oneLiteral_of_mem_results (hlx : lx.Sorts types) (text : List Char) (source : Option String)
    {t : TokenType} (hmem : .ok token ∈ ((lx.stream text source).results lx).1)
    (ht : t ∈ token.types) (hkind : t.kind = .literal) :
    (∃ q inner, isQuote q = true ∧ token.text = .ofList (q :: (inner ++ [q])) ∧
      (OneLiteral q (q :: (inner ++ [q])) ↔ Within q inner ∧ inner.getLast? ≠ some escapeChar)) ∧
    (lx.BareMarkers → (∀ chunk ∈ ((lx.stream text source).scanAll lx).1,
      ∀ s ∈ lx.splitter.split chunk, s.separator = none → Solitary s.text) →
      ∃ q, OneLiteral q token.text.toList) := by
  have hliteral : t.kind.isLiteral = true := by rw [hkind]; rfl
  obtain ⟨chunk, hchunk, harises⟩ := Stream.exists_chunk_of_mem_results text source hmem
  have hholds : lx.Holds (fun _ => True) token :=
    harises.holds hlx (fun _ _ _ _ _ _ => trivial) (fun _ _ _ _ _ _ => trivial)
      (fun _ _ _ _ _ => trivial) fun _ _ _ => trivial
  obtain ⟨hsome, piece, hpiece, hquotes, -⟩ := hholds t ht hliteral
  constructor
  · obtain ⟨q, inner, hq, rfl⟩ := exists_of_isLiteralText hquotes
    exact ⟨q, inner, hq, hpiece, oneLiteral_iff hq⟩
  · intro hmarkers hsolitary
    obtain ⟨-, piece, hpiece, hquotes, hone⟩ :=
      harises.holds_solitary hlx hmarkers (hlx.literalAware hsome)
        (hsolitary chunk hchunk) t ht hliteral
    rw [hpiece, String.toList_ofList]
    exact hone.oneLiteral hquotes

end Lexer

namespace Sample

def quotationTypes : List TokenType := [⟨1, .literal⟩, ⟨2, .separator "," false⟩, ⟨3, .leading "-"⟩]

/-- Literals, with a comma between any two of them and perhaps a dash in front. -/
def quotation : Lexer := .ofTypes quotationTypes

theorem bareMarkers_quotation : quotation.BareMarkers where
  splitter := by
    intro sep hsep
    obtain rfl := List.mem_singleton.mp hsep
    exact ⟨",", false, rfl, List.forall_mem_singleton.mpr ⟨rfl, by decide⟩⟩
  leading := by
    intro t ht marker hkind
    obtain rfl := List.mem_singleton.mp ht
    obtain rfl := TokenKind.leading.inj hkind
    exact List.forall_mem_singleton.mpr ⟨rfl, by decide⟩
  trailing := nofun

/-- A literal with a comma and an escaped quote in it, and another one behind a comma. -/
theorem oneLiteral_of_mem_results_quotation :
    quotation.Sorts quotationTypes ∧ quotation.BareMarkers ∧
    ∃ token, .ok token ∈ ((quotation.stream "-'a,\\'','b'".toList none).results quotation).1 ∧
      token.text = "'a,\\''" ∧ token.types = [⟨1, .literal⟩] ∧
      ∃ q, OneLiteral q token.text.toList := by
  have hsorts : quotation.Sorts quotationTypes := Lexer.sorts_ofTypes quotationTypes
  have hchunks : ((quotation.stream "-'a,\\'','b'".toList none).scanAll quotation).1 =
      ["-'a,\\'','b'".toList] := by
    decide +kernel
  have hsplit : quotation.splitter.split "-'a,\\'','b'".toList = [.plain "-'a,\\''".toList,
        ⟨[','], some ⟨2, .separator "," false⟩⟩, .plain "'b'".toList] := rfl
  have hwithin : Within '\x27' "a,\\'".toList :=
    .char (by decide) (fun h => absurd h (by decide)) <|
      .char (by decide) (fun h => absurd h (by decide)) <| .escaped rfl .nil
  have hfirst : Solitary "-'a,\\''".toList :=
    .inr ⟨'\x27', ['-'], "a,\\'".toList, [], rfl, rfl, List.forall_mem_singleton.mpr rfl, by
      decide, hwithin, by decide, nofun⟩
  have hsecond : Solitary "'b'".toList :=
    .inr ⟨'\x27', [], ['b'], [], rfl, rfl, nofun, nofun,
      .char (by decide) (fun h => absurd h (by decide)) .nil, by decide, nofun⟩
  refine ⟨hsorts, bareMarkers_quotation, _, List.mem_cons_of_mem _ List.mem_cons_self, rfl, rfl, ?_⟩
  refine (Lexer.oneLiteral_of_mem_results hsorts "-'a,\\'','b'".toList none
    (List.mem_cons_of_mem _ List.mem_cons_self) List.mem_cons_self rfl).2 bareMarkers_quotation ?_
  rw [hchunks]
  refine List.forall_mem_singleton.mpr ?_
  rw [hsplit]
  intro s hs hplain
  simp only [List.mem_cons, List.not_mem_nil, or_false] at hs
  rcases hs with rfl | rfl | rfl
  · exact hfirst
  · exact absurd hplain nofun
  · exact hsecond

/-- Two literals without a separator between them are one token. -/
theorem touching_literals : ¬∀ (types : List TokenType) (text : List Char) (source : Option String)
    (token : Token) (t : TokenType),
    .ok token ∈ (((Lexer.ofTypes types).stream text source).results (.ofTypes types)).1 →
      t ∈ token.types → t.kind = .literal → ∃ q, OneLiteral q token.text.toList := by
  intro hall
  obtain ⟨q, hhead, hopen, -⟩ :=
    hall [⟨1, .literal⟩] "'a''b'".toList none _ ⟨1, .literal⟩ List.mem_cons_self
      List.mem_cons_self rfl
  have hfirst := hopen "'a'".toList "'b'".toList rfl (by simp) (by simp)
  exact absurd hfirst nofun

end Sample

end GrammarGraph
