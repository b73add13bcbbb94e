import GrammarGraph.Proofs.Chunks

/-!
# Reading the tokens one at a time

A stream hands out one by one what `Stream.results` lists at once: the tokens that were pulled from
it and those that are still to come are all the tokens of the input (`Stream.Pulls.results_eq`).
-/

namespace GrammarGraph

namespace Stream

variable {lx : Lexer} {s s' t : Stream} {chunk : Chunk} {token : Token} {tokens : List Token}

/-- The tokens pulled from a stream one after the other, up to a later state of it.  At the end of
the input a stream can be asked again in vain. -/
inductive Pulls (lx : Lexer) (s : Stream) : List Token → Stream → Prop
  | refl : Pulls lx s [] s
  | token {tokens : List Token} {t s' : Stream} {token : Token} :
      Pulls lx s tokens t → t.next lx = (.ok (some token), s') → Pulls lx s (tokens ++ [token]) s'
  | stop {tokens : List Token} {t s' : Stream} :
      Pulls lx s tokens t → t.next lx = (.ok none, s') → Pulls lx s tokens s'

/-! ## The chunks ahead -/

/-- More levels than there are characters change nothing. -/
theorem drain_eq : ∀ {m n : Nat} {s : Stream}, s.Idle → s.window.rest.length < m →
    s.window.rest.length < n → s.drain lx m = s.drain lx n
  | 0, _, _, _, hm, _ => absurd hm (Nat.not_lt_zero _)
  | _, 0, _, _, _, hn => absurd hn (Nat.not_lt_zero _)
  | m + 1, n + 1, s, hs, hm, hn => by
    have hreads := readsChunk_nextChunk lx hs
    rw [drain, drain]
    split
    · rfl
    · next chunk t hchunk =>
      rw [hchunk] at hreads
      have hlt := hreads.rest_lt chunk rfl hs.collected
      rw [drain_eq (m := m) (n := n) hreads.idle (Nat.lt_of_lt_of_le hlt (Nat.le_of_lt_succ hm))
        (Nat.lt_of_lt_of_le hlt (Nat.le_of_lt_succ hn))]

theorem fst_results (lx : Lexer) (s : Stream) :
    (s.results lx).1 =
      s.pending.map .ok ++ (drain lx (s.window.rest.length + 1) { s with pending := [] }).1 := rfl

theorem fst_results_of_pending_nil (lx : Lexer) (hp : s.pending = []) :
    (s.results lx).1 = (s.drain lx (s.window.rest.length + 1)).1 := by
  have hself : { s with pending := [] } = s := by rw [← hp]
  rw [fst_results, hself, hp, List.map_nil, List.nil_append]

theorem results_of_nextChunk_none (hp : s.pending = []) (h : s.nextChunk lx = (none, t)) :
    (s.results lx).1 = [] := by
  rw [fst_results_of_pending_nil lx hp, drain, h]

/-- With no token waiting, what is ahead is what the next chunk contributes and
what is ahead behind it. -/
theorem results_of_nextChunk_some (hs : s.Idle) (hp : s.pending = [])
    (h : s.nextChunk lx = (some chunk, t)) :
    (s.results lx).1 = ofChunk lx t.source chunk ++ (t.results lx).1 := by
  have hreads := readsChunk_nextChunk lx hs
  rw [h] at hreads
  rw [fst_results_of_pending_nil lx hp, drain, h,
    fst_results_of_pending_nil lx (hreads.pending.trans hp)]
  simp only
  rw [drain_eq (n := t.window.rest.length + 1) hreads.idle (hreads.rest_lt chunk rfl hs.collected)
    (Nat.lt_succ_self _)]

/-- Waiting tokens come first. -/
theorem results_append (hp : s.pending = []) (tokens : List Token) :
    (results lx { s with pending := tokens }).1 = tokens.map .ok ++ (s.results lx).1 := by
  rw [fst_results, fst_results, hp]
  rfl

/-! ## One token at a time -/

theorem results_of_next_some (hs : s.Idle) (h : s.next lx = (.ok (some token), s')) :
    s'.Idle ∧ (s.results lx).1 = .ok token :: (s'.results lx).1 := by
  unfold next at h
  split at h
  · next waiting rest hp =>
    obtain ⟨ht, rfl⟩ := Prod.mk.inj h
    obtain rfl := Option.some.inj (Except.ok.inj ht)
    refine ⟨⟨hs.collected, hs.size_pos⟩, ?_⟩
    rw [fst_results, fst_results, hp]
    rfl
  · next hp =>
    have hreads := readsChunk_nextChunk lx hs
    split at h
    · exact absurd (Prod.mk.inj h).1 (by simp)
    · next chunk t hchunk =>
      rw [hchunk] at hreads
      rw [results_of_nextChunk_some hs hp hchunk]
      split at h
      · exact absurd (Prod.mk.inj h).1 (by simp)
      · exact absurd (Prod.mk.inj h).1 (by simp)
      · next first rest hclassify =>
        obtain ⟨ht, rfl⟩ := Prod.mk.inj h
        obtain rfl := Option.some.inj (Except.ok.inj ht)
        refine ⟨⟨hreads.idle.collected, hreads.idle.size_pos⟩, ?_⟩
        have hwaiting : t.pending = [] := hreads.pending.trans hp
        rw [results_append hwaiting rest, ofChunk, hclassify]
        rfl

theorem results_of_next_none (hs : s.Idle) (h : s.next lx = (.ok none, s')) :
    s'.Idle ∧ (s.results lx).1 = [] ∧ (s'.results lx).1 = [] ∧ s'.pending = [] ∧
      s'.window.rest = [] := by
  unfold next at h
  split at h
  · exact absurd (Prod.mk.inj h).1 (by simp)
  · next hp =>
    have hreads := readsChunk_nextChunk lx hs
    split at h
    · next t hchunk =>
      obtain ⟨-, rfl⟩ := Prod.mk.inj h
      rw [hchunk] at hreads
      have ht : t.pending = [] := hreads.pending.trans hp
      refine ⟨hreads.idle, results_of_nextChunk_none hp hchunk, ?_, ht, hreads.rest_eq rfl⟩
      -- Nothing is left to read, so no further chunk can be found.
      have hagain := readsChunk_nextChunk lx hreads.idle
      rcases hchunk' : t.nextChunk lx with ⟨_ | chunk, u⟩
      · exact results_of_nextChunk_none ht hchunk'
      · rw [hchunk'] at hagain
        have hlt := hagain.rest_lt chunk rfl hreads.idle.collected
        rw [hreads.rest_eq rfl] at hlt
        exact absurd hlt (Nat.not_lt_zero _)
    · next chunk t hchunk =>
      rw [hchunk] at hreads
      split at h
      · exact absurd (Prod.mk.inj h).1 (by simp)
      · next hclassify =>
          exact absurd hclassify (Lexer.classify_ne_nil (hreads.text_ne_nil chunk rfl) _)
      · exact absurd (Prod.mk.inj h).1 (by simp)

theorem results_of_next_error {e : ParseError} (hs : s.Idle) (h : s.next lx = (.error e, s')) :
    (s.results lx).1 = .error e :: (s'.results lx).1 := by
  unfold next at h
  split at h
  · exact absurd (Prod.mk.inj h).1 (by simp)
  · next hp =>
    split at h
    · exact absurd (Prod.mk.inj h).1 (by simp)
    · next chunk t hchunk =>
      split at h
      · next unknown hclassify =>
        obtain ⟨he, rfl⟩ := Prod.mk.inj h
        obtain rfl := Except.error.inj he
        rw [results_of_nextChunk_some hs hp hchunk, ofChunk, hclassify]
        rfl
      · exact absurd (Prod.mk.inj h).1 (by simp)
      · exact absurd (Prod.mk.inj h).1 (by simp)

namespace Pulls

theorem idle (h : Pulls lx s tokens s') (hs : s.Idle) : s'.Idle := by
  induction h with
  | refl => exact hs
  | token _ hnext ih => exact (results_of_next_some ih hnext).1
  | stop _ hnext ih => exact (results_of_next_none ih hnext).1

/-- What was pulled and what is still ahead is all there is. -/
theorem results_eq (h : Pulls lx s tokens s') (hs : s.Idle) :
    (s.results lx).1 = tokens.map .ok ++ (s'.results lx).1 := by
  induction h with
  | refl => rfl
  | token hpulls hnext ih =>
    rw [ih, (results_of_next_some (hpulls.idle hs) hnext).2, List.map_append, List.append_assoc]
    rfl
  | stop hpulls hnext ih =>
    obtain ⟨-, hnow, hthen, -⟩ := results_of_next_none (hpulls.idle hs) hnext
    rw [ih, hnow, hthen]

end Pulls

end Stream

theorem mapM_id_eq_ok {ε α : Type} {l : List (Except ε α)} {xs : List α} :
    l.mapM id = .ok xs ↔ l = xs.map .ok := by
  induction l generalizing xs with
  | nil =>
    constructor
    · intro h
      obtain rfl : [] = xs := Except.ok.inj h
      rfl
    · intro h
      rw [List.map_eq_nil_iff.mp h.symm]
      rfl
  | cons x l ih =>
    rw [List.mapM_cons]
    constructor
    · intro h
      cases x with
      | error e => exact absurd h (by simp [bind, Except.bind])
      | ok x =>
        cases hl : l.mapM id with
        | error e =>
          rw [hl] at h
          exact absurd h (by simp [bind, Except.bind])
        | ok ys =>
          rw [hl] at h
          obtain rfl : x :: ys = xs := Except.ok.inj h
          rw [List.map_cons, ← ih.mp hl]
    · intro h
      obtain ⟨y, ys, rfl, rfl, hl⟩ := List.map_eq_cons_iff.mp h.symm
      rw [ih.mpr hl.symm]
      rfl

theorem mapM_id_append_error {ε α : Type} {l : List (Except ε α)} {xs : List α} {e : ε}
    (h : l.mapM id = .error e) : (xs.map Except.ok ++ l).mapM id = .error e := by
  rw [List.mapM_append, mapM_id_eq_ok.mpr rfl, h]
  rfl

theorem exists_of_map_eq_ok {ε α β : Type} {f : α → β} {r : Except ε α} {b : β}
    (h : r.map f = .ok b) : ∃ a, r = .ok a ∧ f a = b := by
  cases r with
  | error e => exact absurd h nofun
  | ok a => exact ⟨a, rfl, Except.ok.inj h⟩

theorem exists_of_append_eq_ok {ε α : Type} {first rest : Except ε (List α)} {xs : List α}
    (h : (do let front ← first; let back ← rest; return front ++ back) = Except.ok xs) :
    ∃ front back, first = .ok front ∧ rest = .ok back ∧ front ++ back = xs := by
  cases first with
  | error e => exact absurd h nofun
  | ok front =>
    cases rest with
    | error e => exact absurd h nofun
    | ok back => exact ⟨front, back, rfl, rfl, Except.ok.inj h⟩

end GrammarGraph
