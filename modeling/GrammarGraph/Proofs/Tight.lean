import GrammarGraph.Proofs.Loosening
import GrammarGraph.Proofs.Origins

/-!
# Tight separators

A tight separator is meant to count between two texts only.  Lexing cuts it out wherever a plain one
would be (`Lexer.tokenizeFrom_loosened`), so it may be the first or the last thing of a chunk, next
to a blank, a comment or the end of the input.  Within a chunk there are characters on both sides,
and where no literal holds blanks together none of them is blank (`Lexer.tight_of_tokenizeFrom`).
-/

namespace GrammarGraph

/-- The last character in front and the first one behind are there and not blank. -/
def Sheltered (before behind : List Char) : Prop :=
  before.getLast?.any (!Text.isBlank ·) = true ∧ behind.head?.any (!Text.isBlank ·) = true

instance (before behind : List Char) : Decidable (Sheltered before behind) := instDecidableAnd

theorem sheltered_of_forall {before behind : List Char} (hbefore : before ≠ [])
    (hbehind : behind ≠ []) (h : ∀ c ∈ before ++ behind, Text.isBlank c = false) :
    Sheltered before behind := by
  obtain ⟨d, ds, rfl⟩ := List.exists_cons_of_ne_nil hbehind
  constructor
  · rw [List.getLast?_eq_some_getLast hbefore, Option.any_some,
      h _ (List.mem_append_left _ (List.getLast_mem hbefore))]
    rfl
  · rw [List.head?_cons, Option.any_some, h d (List.mem_append_right _ List.mem_cons_self)]
    rfl

theorem Sheltered.append {left right : List Char} (h : Sheltered left right)
    (before behind : List Char) : Sheltered (before ++ left) (right ++ behind) := by
  obtain ⟨hleft, hright⟩ := h
  obtain ⟨c, hc, hblank⟩ := (Option.any_eq_true _ _).mp hleft
  obtain ⟨d, hd, hblank'⟩ := (Option.any_eq_true _ _).mp hright
  constructor
  · rw [List.getLast?_append, hc, Option.some_or, Option.any_some, hblank]
  · rw [List.head?_append, hd, Option.some_or, Option.any_some, hblank']

/-! ## Tokens of separators -/

/-- The token of a marker is the marker. -/
def Token.Spelled (token : Token) : Prop :=
  ∀ t ∈ token.types, ∀ marker tight, t.kind = .separator marker tight → token.text = marker

namespace Lexer

variable {lx : Lexer} {text : List Char} {before : Position} {token : Token} {tokens : List Token}

theorem Filed.spelled_token (h : lx.Filed) {types : List TokenType}
    (htypes : ∀ t ∈ types, t ∈ lx.others) : (lx.token text types before).Spelled := by
  intro t ht marker tight hkind
  have hnot := h t (htypes t ht)
  rw [hkind] at hnot
  exact absurd hnot nofun

theorem Arises.spelled (hfiled : lx.Filed) (h : lx.Arises text token) : token.Spelled := by
  have hone {t : TokenType} (ht : t ∈ lx.others) {text : List Char} {before : Position} :
      (lx.token text [t] before).Spelled := hfiled.spelled_token (List.forall_mem_singleton.mpr ht)
  have hlists : lx.others =
      lx.literal.toList ++ (lx.leading ++ (lx.trailing ++ (lx.keywords ++ lx.words))) := rfl
  induction h with
  | @separator text s sep before hs hsep =>
    intro t ht marker tight hkind
    obtain rfl := List.mem_singleton.mp ht
    show String.ofList s.text = marker
    rw [(Splitter.separator_of_mem_split hs hsep).2 marker tight hkind, String.ofList_toList]
  | literal _ _ ht _ => exact hone (List.mem_append_left _ (Option.mem_toList.mpr ht))
  | leading ht | trailing ht => exact hone (by simp [hlists, ht])
  | behind _ _ _ _ _ ih | front _ _ _ _ _ ih => exact ih
  | plain => exact hfiled.spelled_token fun t ht => mem_others_of_mem_plainTypes ht

/-! ## Where a token stands -/

/-- A token of a chunk is a piece of it. -/
theorem Tiles.exists_piece (h : Tiles lx before tokens text) (hmem : token ∈ tokens) :
    ∃ left piece right, text = left ++ piece ++ right ∧ piece ≠ [] ∧ token.text = .ofList piece ∧
      token.start = (before.advanceOver lx.tabSize left).firstOf lx.tabSize piece ∧
      token.stop = (before.advanceOver lx.tabSize left).advanceOver lx.tabSize piece := by
  induction h with
  | nil => exact absurd hmem List.not_mem_nil
  | @cons before first tokens piece rest hpiece htext hstart hstop _ ih =>
    rcases List.mem_cons.mp hmem with rfl | hmem
    · exact ⟨[], piece, rest, rfl, hpiece, htext, hstart, hstop⟩
    · obtain ⟨left, piece', right, rfl, hplace⟩ := ih hmem
      refine ⟨piece ++ left, piece', right, by simp only [List.append_assoc], ?_⟩
      rwa [Position.advanceOver_append]

end Lexer

namespace Stream

variable {lx : Lexer} {s : Stream} {text passed gap : List Char} {source : Option String}
  {token : Token}

/-- A token of the rest of a text is one of a chunk that stands in it. -/
theorem At.exists_chunk {fuel : Nat} (hlx : lx.Regular) (h : At lx text source passed gap s)
    (hs : s.Idle) (hfuel : s.window.rest.length < fuel) (hmem : .ok token ∈ (s.drain lx fuel).1) :
    ∃ (chunk : Chunk) (tokens : List Token) (before behind : List Char),
      chunk.text ∈ (s.scanAll lx).1 ∧ chunk.text ≠ [] ∧
      lx.classify chunk.text chunk.before = .ok tokens ∧ token ∈ tokens ∧
      text = before ++ chunk.text ++ behind ∧ chunk.before = lx.walk before := by
  induction fuel generalizing passed gap s with
  | zero => exact absurd hfuel (Nat.not_lt_zero _)
  | succ fuel ih =>
    have hreads := readsChunk_nextChunk lx hs
    obtain ⟨hgives, -⟩ := h.nextChunk
    have hscan := scanAll_nextChunk lx hs
    rw [drain] at hmem
    rcases hnext : s.nextChunk lx with ⟨_ | chunk, t⟩ <;> rw [hnext] at hreads hgives hscan hmem
    · exact absurd hmem List.not_mem_nil
    · cases hgives with
      | @chunk gap' gap'' _ _ _ hne hbefore hat _ =>
        rcases List.mem_append.mp hmem with hmem | hmem
        · obtain ⟨tokens, hclassify, htoken⟩ := exists_classify_of_mem_ofChunk hmem
          refine ⟨chunk, tokens, passed ++ gap', gap'' ++ t.collected.reverse ++ t.window.rest, ?_,
            hne, hclassify, htoken, ?_, hbefore.trans hlx.advanceOver_max⟩
          · rw [hscan]
            exact List.mem_append_left _ List.mem_cons_self
          · rw [hat.text_eq]
            simp only [List.append_assoc]
        · obtain ⟨chunk', tokens, before, behind, hmem', hrest⟩ :=
            ih hat hreads.idle (Nat.lt_of_lt_of_le (hreads.rest_lt chunk rfl hs.collected)
              (Nat.le_of_lt_succ hfuel)) hmem
          refine ⟨chunk', tokens, before, behind, ?_, hrest⟩
          rw [hscan]
          exact List.mem_append_right _ hmem'

/-! ## Blanks in chunks -/

/-- No literal is open, and no blank has been collected. -/
structure Plain (s : Stream) : Prop where
  openQuote : s.openQuote = none
  collected : ∀ c ∈ s.collected, Text.isBlank c = false

/-- What is left is plain, and there are no blanks in what is handed out. -/
def HandsPlain (result : Option Chunk × Stream) : Prop :=
  result.2.Plain ∧ ∀ chunk ∈ result.1, ∀ c ∈ chunk.text, Text.isBlank c = false

namespace Plain

variable {c : Char} {cs seen : List Char} {mode : Mode}

theorem skip (h : s.Plain) (n : Nat) : (s.skip n).Plain := ⟨h.openQuote, h.collected⟩

theorem setMode (h : s.Plain) (mode : Mode) : Plain { s with mode } := ⟨h.openQuote, h.collected⟩

theorem collect (h : s.Plain) (hrest : s.window.rest = c :: cs) (hc : Text.isBlank c = false) :
    s.collect.Plain := by
  simp only [Stream.collect, Window.next?, hrest]
  exact ⟨h.openQuote, List.forall_mem_cons.mpr ⟨hc, h.collected⟩⟩

theorem handsPlain (h : s.Plain) : HandsPlain (none, s) := ⟨h, nofun⟩

theorem flush (h : s.Plain) : HandsPlain s.flush := by
  unfold Stream.flush
  split
  · exact h.handsPlain
  · refine ⟨⟨h.openQuote, nofun⟩, ?_⟩
    rintro chunk hchunk c hc
    obtain rfl := Option.some.inj hchunk
    exact h.collected c (List.mem_reverse.mp hc)

theorem enter (h : s.Plain) (hrest : s.window.rest = c :: cs)
    (hc : s.mode = .blanks → Text.isBlank c = false) : HandsPlain (s.enter lx mode) := by
  have hentered := h.setMode mode
  unfold Stream.enter
  split
  · exact (hentered.skip _).flush
  · next hmode =>
    split
    · exact (hentered.collect hrest (hc hmode)).handsPlain
    · exact (hentered.skip _).handsPlain
  · exact (hentered.skip _).handsPlain
  · exact (hentered.skip _).handsPlain

/-- Without literals every step goes on like that. -/
theorem step (hlx : lx.literal = none) (h : s.Plain) (hrest : s.window.rest = c :: cs) :
    HandsPlain (s.step lx c seen) := by
  have hconsume (hc : s.mode = .normal → Text.isBlank c = false) :
      HandsPlain (none, s.consume lx c seen) := by
    unfold consume
    split
    · exact (h.skip 1).handsPlain
    · next hmode =>
      rw [hlx, if_pos (by rfl)]
      exact (h.collect hrest (hc (not_not.mp hmode))).handsPlain
  cases hmode : s.mode with
  | normal =>
    simp only [Stream.step, nextMode, hmode, h.openQuote, Option.isNone_none, Bool.true_and]
    cases hblank : Text.isBlank c with
    | true => exact h.enter hrest fun heq => Mode.noConfusion (hmode.symm.trans heq)
    | false =>
      simp only [Bool.false_eq_true, if_false]
      cases s.commentMode? lx seen with
      | none => exact hconsume fun _ => hblank
      | some mode => exact h.enter hrest fun _ => hblank
  | blanks =>
    simp only [Stream.step, nextMode, hmode, hlx, h.openQuote, Option.isSome_none,
      Option.isNone_none, Bool.false_and, Bool.and_true, Bool.false_eq_true, if_false]
    cases hblank : Text.isBlank c with
    | true => exact hconsume fun heq => Mode.noConfusion (hmode.symm.trans heq)
    | false =>
      simp only [Bool.false_eq_true, if_false]
      cases s.commentMode? lx seen <;> exact h.enter hrest fun _ => hblank
  | lineComment =>
    by_cases hc : c = '\n'
    · simp only [Stream.step, nextMode, hmode, if_pos hc]
      exact h.enter hrest fun heq => Mode.noConfusion (hmode.symm.trans heq)
    · simp only [Stream.step, nextMode, hmode, if_neg hc]
      exact hconsume fun heq => Mode.noConfusion (hmode.symm.trans heq)
  | blockComment =>
    cases hstop : lx.blockComment.any fun marker => startsWith seen marker.2 with
    | true =>
      simp only [Stream.step, nextMode, hmode, hstop, if_true]
      exact h.enter hrest fun heq => Mode.noConfusion (hmode.symm.trans heq)
    | false =>
      simp only [Stream.step, nextMode, hmode, hstop, Bool.false_eq_true, if_false]
      exact hconsume fun heq => Mode.noConfusion (hmode.symm.trans heq)

/-- Without literals there are no blanks in chunks. -/
theorem scanAll (hlx : lx.literal = none) (h : s.Plain) (hsize : 0 < s.window.size) :
    ∀ text ∈ (s.scanAll lx).1, ∀ c ∈ text, Text.isBlank c = false := by
  refine step_induction (P := fun s => s.Plain →
    ∀ text ∈ (s.scanAll lx).1, ∀ c ∈ text, Text.isBlank c = false) lx 0 hsize ?_ ?_ h
  · intro s _ hrest h text htext
    rw [scanAll_of_nil (List.length_eq_zero_iff.mp (Nat.le_zero.mp hrest))] at htext
    obtain ⟨chunk, hchunk, rfl⟩ := List.mem_map.mp htext
    exact h.flush.2 chunk (Option.mem_toList.mp hchunk)
  · intro s c cs _ _ hseen ih h text htext
    obtain ⟨rest, hrest⟩ := exists_rest hseen
    have hstep : HandsPlain (s.step lx c (c :: cs)) := h.step hlx hrest
    rw [scanAll_step hseen] at htext
    rcases List.mem_append.mp htext with htext | htext
    · obtain ⟨chunk, hchunk, rfl⟩ := List.mem_map.mp htext
      exact hstep.2 chunk (Option.mem_toList.mp hchunk)
    · exact ih hstep.1 text htext

end Plain

end Stream

namespace Lexer

variable {lx : Lexer}

/-- With tight separators lexing gives the tokens that it gives with plain ones.  A token of a tight
separator stands in a chunk, and it has characters on both sides that are not blank unless it is the
first or the last thing in that chunk, or next to a blank in it, which takes a literal. -/
theorem tight_of_tokenizeFrom (hlx : lx.Regular) (hfiled : lx.Filed) (text : List Char)
    (source : Option String) (tokens : List Token)
    (hok : lx.tokenizeFrom text source = .ok tokens) :
    lx.loosened.tokenizeFrom text source = .ok (tokens.map Token.loosened) ∧
    ∀ token ∈ tokens, ∀ t ∈ token.types, ∀ marker, t.kind = .separator marker true →
      ∃ passed left right behind,
        left ++ marker.toList ++ right ∈ ((lx.stream text source).scanAll lx).1 ∧
        text = (passed ++ left) ++ marker.toList ++ (right ++ behind) ∧ token.text = marker ∧
        token.start = lx.walk (passed ++ left ++ marker.toList.take 1) ∧
        token.stop = lx.walk (passed ++ left ++ marker.toList) ∧
        (left ≠ [] → right ≠ [] → lx.literal = none ∨ Sheltered left right →
          Sheltered (passed ++ left) (right ++ behind)) := by
  refine ⟨by rw [tokenizeFrom_loosened hfiled, hok]; rfl, ?_⟩
  intro token htoken t ht marker hkind
  have hmem : .ok token ∈
      ((lx.stream text source).drain lx ((lx.stream text source).window.rest.length + 1)).1 := by
    rw [tokenizeFrom, Stream.fst_results_of_pending_nil lx rfl, mapM_id_eq_ok] at hok
    rw [hok]
    exact List.mem_map_of_mem htoken
  obtain ⟨chunk, more, passed, behind, hscan, hne, hclassify, hmore, htext, hbefore⟩ :=
    (Stream.at_stream lx text source).exists_chunk hlx (Stream.idle_stream lx text source)
      (Nat.lt_succ_self _) hmem
  have htiles := answers_classify hlx hne chunk.before
  rw [hclassify] at htiles
  obtain ⟨left, piece, right, hchunk, hpiece, hspelled, hstart, hstop⟩ :=
    Tiles.exists_piece htiles hmore
  have hmarker : token.text = marker :=
    (arises_classify hclassify token hmore).spelled hfiled t ht marker true hkind
  obtain rfl : piece = marker.toList := by rw [← hmarker, hspelled, String.toList_ofList]
  rw [hbefore, ← walk_append] at hstart hstop
  rw [firstOf_walk hpiece] at hstart
  rw [← walk_append] at hstop
  rw [hchunk] at hscan
  refine ⟨passed, left, right, behind, hscan, ?_, hmarker, hstart, hstop, ?_⟩
  · rw [htext, hchunk]
    simp only [List.append_assoc]
  · intro hleft hright hblanks
    have hsheltered : Sheltered left right := by
      refine hblanks.elim (fun hliteral => ?_) id
      have hplain : (lx.stream text source).Plain := ⟨rfl, List.forall_mem_nil _⟩
      have hsize := (Stream.idle_stream lx text source).size_pos
      have hall := hplain.scanAll hliteral hsize _ hscan
      refine sheltered_of_forall hleft hright fun c hc => hall c ?_
      simp only [List.mem_append] at hc ⊢
      tauto
    exact hsheltered.append passed behind

end Lexer

namespace Sample

/-- Words may have dots in them, which a dot between two characters takes apart. -/
def dottedTypes : List TokenType := [⟨1, .validWord "[a-z.]+" (by decide)⟩, dot]

def dotted : Lexer := .ofTypes dottedTypes

theorem regular_dotted : dotted.Regular := by
  refine Lexer.regular_ofTypes ?_
  simp [dottedTypes, dot, TokenKind.Slices, TokenKind.validWord]

theorem tight_of_tokenizeFrom_dotted : dotted.Regular ∧ dotted.Filed ∧
    ∃ tokens, dotted.tokenizeFrom "a.b".toList none = .ok tokens ∧
    tokens.map Token.text = ["a", ".", "b"] ∧
      dotted.loosened.tokenizeFrom "a.b".toList none = .ok (tokens.map Token.loosened) ∧
      ∃ token ∈ tokens, token.types = [dot] ∧
      ∃ before behind, "a.b".toList = before ++ ".".toList ++ behind ∧
        token.stop = dotted.walk (before ++ ".".toList) ∧ Sheltered before behind := by
  have hfiled := Lexer.filed_ofTypes dottedTypes
  have hchunks : ((dotted.stream "a.b".toList none).scanAll dotted).1 = ["a.b".toList] := by
    decide +kernel
  refine ⟨regular_dotted, hfiled, _, rfl, rfl, ?_⟩
  obtain ⟨hloosened, htight⟩ :=
    Lexer.tight_of_tokenizeFrom regular_dotted hfiled "a.b".toList none _ rfl
  refine ⟨hloosened, _, List.mem_cons_of_mem _ List.mem_cons_self, rfl, ?_⟩
  obtain ⟨passed, left, right, behind, hchunk, htext, -, -, hstop, hsheltered⟩ :=
    htight _ (List.mem_cons_of_mem _ List.mem_cons_self) dot List.mem_cons_self "." rfl
  have hwhole : left ++ ".".toList ++ right = "a.b".toList :=
    List.mem_singleton.mp (hchunks ▸ hchunk)
  refine ⟨passed ++ left, right ++ behind, htext, hstop, hsheltered ?_ ?_ (.inl rfl)⟩
  · rintro rfl
    exact absurd hwhole (by simp)
  · rintro rfl
    exact absurd (congrArg List.getLast? hwhole) (by simp)

/-- At the start of a text nothing is in front of a dot, and it is cut out all the same. -/
theorem dot_cut_out_at_start :
    ¬∀ (lx : Lexer) (text : List Char) (source : Option String) (tokens : List Token), lx.Regular →
    lx.Filed → lx.tokenizeFrom text source = .ok tokens →
      ∀ token ∈ tokens, ∀ t ∈ token.types, ∀ marker, t.kind = .separator marker true →
        ∃ before behind, text = before ++ marker.toList ++ behind ∧
        token.stop = lx.walk (before ++ marker.toList) ∧ Sheltered before behind := by
  intro hall
  obtain ⟨before, behind, htext, -, hsheltered⟩ :=
    hall dotted ".a".toList none _ regular_dotted (Lexer.filed_ofTypes dottedTypes) rfl
      _ List.mem_cons_self dot List.mem_cons_self "." rfl
  cases before with
  | nil => exact absurd hsheltered.1 nofun
  | cons c before =>
    -- the one dot is the first character
    have hbehind : ['a'] = before ++ ".".toList ++ behind := (List.cons.inj htext).2
    have hmem : '.' ∈ ['a'] := by rw [hbehind]; simp
    exact absurd hmem (by decide)

end Sample

end GrammarGraph
