import GrammarGraph.Proofs.Cuts
import GrammarGraph.Proofs.Patterns

/-!
# Where a marker is found

A pattern that tries every way of reading a text finds one if there is one: any number of characters
of a set read as many as the rest of the pattern needs (`Regex.isSome_star_of_reads`), and as many
as it can do with (`Regex.exists_longest_of_star`).  So a separating marker is cut out of every text
that contains it (`TokenKind.cut?_separator_eq_none`), it is its last occurrence that is found
(`Pattern.lastOccurrence_of_find`), and what no longer is cut does not contain the marker.
-/

namespace GrammarGraph

namespace Cursor

variable {cur cur' : Cursor} {read : List Char} {set : CharSet} {c : Char}

theorem Reads.eq_of_nil (h : cur.Reads [] cur') : cur' = cur := by
  obtain ⟨hrest, hpos, hlast⟩ := h
  obtain ⟨pos, last, rest⟩ := cur'
  simp only [List.nil_append, List.length_nil, Nat.add_zero, List.getLast?_nil,
    Option.none_or] at hrest hpos hlast
  rw [hpos, hlast, ← hrest]

/-- The first of the characters is read on its own. -/
theorem Reads.exists_step (h : cur.Reads (c :: read) cur') (hc : set.mem c = true) :
    ∃ next, cur.step? set = some next ∧ cur.pos < next.pos ∧ next.Reads read cur' := by
  have hrest : cur.rest = c :: (read ++ cur'.rest) := h.rest
  refine ⟨⟨cur.pos + 1, some c, read ++ cur'.rest⟩, ?_, Nat.lt_succ_self _, rfl, ?_, ?_⟩
  · simp only [step?, hrest, hc, if_pos]
  · rw [h.pos, List.length_cons, Nat.add_assoc, Nat.add_comm 1]
  · rw [h.last, List.getLast?_cons]
    cases read.getLast? <;> rfl

theorem exists_reads {rest : List Char} (h : cur.rest = read ++ rest) :
    ∃ cur', cur.Reads read cur' ∧ cur'.rest = rest :=
  ⟨⟨cur.pos + read.length, read.getLast?.or cur.last, rest⟩, ⟨h, rfl, rfl⟩, rfl⟩

/-- From the start of a text to a place in it. -/
theorem reads_start (read rest : List Char) :
    (start (read ++ rest)).Reads read ⟨read.length, read.getLast?, rest⟩ :=
  ⟨rfl, (Nat.zero_add _).symm, (Option.or_none).symm⟩

end Cursor

namespace Regex

variable {α : Type} {k : Cursor → Groups → Option α} {cur cur' : Cursor} {gs : Groups}
  {read marker : List Char} {s : CharSet}

theorem isSome_again_of_reads (hk : (k cur' gs).isSome = true) {fuel : Nat}
    (hread : cur.Reads read cur') (hset : ∀ c ∈ read, s.mem c = true) (hfuel : read.length ≤ fuel) :
    (again (run (.set s)) true fuel cur gs k).isSome = true := by
  induction read generalizing cur fuel with
  | nil =>
    obtain rfl := hread.eq_of_nil
    cases fuel with
    | zero => exact hk
    | succ fuel => rw [again, isSome_prefer, hk, Bool.or_true]
  | cons c read ih =>
    obtain ⟨fuel, rfl⟩ := Nat.exists_eq_add_one_of_ne_zero (Nat.ne_zero_of_lt hfuel)
    obtain ⟨hc, hset⟩ := List.forall_mem_cons.mp hset
    obtain ⟨next, hstep, hpos, hrest⟩ := hread.exists_step hc
    rw [again, isSome_prefer, Bool.or_eq_true]
    left
    simp only [run, hstep, Option.bind_some, if_pos hpos]
    exact ih hrest hset (Nat.le_of_succ_le_succ hfuel)

/-- One or more characters of a set can be the ones with which the rest of the work succeeds. -/
theorem isSome_plus_of_reads (hk : (k cur' gs).isSome = true) (hread : cur.Reads read cur')
    (hne : read ≠ []) (hset : ∀ c ∈ read, s.mem c = true) :
    (run (plus true (.set s)) cur gs k).isSome = true := by
  obtain ⟨c, read, rfl⟩ := List.exists_cons_of_ne_nil hne
  obtain ⟨hc, hset⟩ := List.forall_mem_cons.mp hset
  obtain ⟨next, hstep, hpos, hrest⟩ := hread.exists_step hc
  simp only [run, hstep, Option.bind_some, if_pos hpos]
  refine isSome_again_of_reads hk hrest hset ?_
  rw [hrest.rest, List.length_append]
  exact Nat.le_add_right _ _

/-- Any number of characters of a set can be the ones with which the rest of the work succeeds. -/
theorem isSome_star_of_reads (hk : (k cur' gs).isSome = true) (hread : cur.Reads read cur')
    (hset : ∀ c ∈ read, s.mem c = true) : (run (star true (.set s)) cur gs k).isSome = true := by
  rw [star, run, isSome_prefer, Bool.or_eq_true]
  cases read with
  | nil =>
    obtain rfl := hread.eq_of_nil
    exact .inr hk
  | cons c read => exact .inl (isSome_plus_of_reads hk hread (List.cons_ne_nil _ _) hset)

/-- Where a repetition stops, the work that is left succeeds, and it would not have further on. -/
def Longest (s : CharSet) (cur : Cursor) (gs : Groups) (k : Cursor → Groups → Option α)
    (x : α) : Prop :=
  ∃ read stop, cur.Reads read stop ∧ k stop gs = some x ∧
    ∀ more further, more ≠ [] → (∀ c ∈ more, s.mem c = true) → stop.Reads more further →
    k further gs = none

theorem again_of_step {fuel : Nat} {next : Cursor} (h : cur.step? s = some next) :
    again (run (.set s)) true (fuel + 1) cur gs k =
      (again (run (.set s)) true fuel next gs k).orElse fun _ => k cur gs := by
  obtain ⟨c, -, hread⟩ := Cursor.reads_of_step? h
  have hpos : cur.pos < next.pos := by
    rw [hread.pos]
    exact Nat.lt_succ_self _
  show Option.orElse ((cur.step? s).bind _) _ = _
  rw [h, Option.bind_some]
  simp only [if_pos hpos]

theorem again_of_step_none {fuel : Nat} (h : cur.step? s = none) :
    again (run (.set s)) true fuel cur gs k = k cur gs := by
  cases fuel with
  | zero => rfl
  | succ fuel =>
    show Option.orElse ((cur.step? s).bind _) _ = _
    rw [h]
    rfl

theorem exists_longest_of_again {x : α} {fuel : Nat} (hfuel : cur.rest.length ≤ fuel)
    (h : again (run (.set s)) true fuel cur gs k = some x) : Longest s cur gs k x := by
  induction fuel generalizing cur with
  | zero =>
    refine ⟨[], cur, .refl _, h, fun more further hne _ hreads => ?_⟩
    have hrest := hreads.rest
    rw [List.length_eq_zero_iff.mp (Nat.le_zero.mp hfuel)] at hrest
    exact absurd (List.append_eq_nil_iff.mp hrest.symm).1 hne
  | succ fuel ih =>
    cases hstep : cur.step? s with
    | none =>
      rw [again_of_step_none hstep] at h
      refine ⟨[], cur, .refl _, h, fun more further hne hall hreads => ?_⟩
      obtain ⟨c, more, rfl⟩ := List.exists_cons_of_ne_nil hne
      obtain ⟨next, hnext, -⟩ := hreads.exists_step (hall c List.mem_cons_self)
      exact absurd (hstep.symm.trans hnext) nofun
    | some next =>
      obtain ⟨c, -, hread⟩ := Cursor.reads_of_step? hstep
      have hless : next.rest.length ≤ fuel := by
        rw [hread.rest, List.singleton_append, List.length_cons] at hfuel
        exact Nat.le_of_succ_le_succ hfuel
      rw [again_of_step hstep] at h
      cases hmore : again (run (.set s)) true fuel next gs k with
      | some y =>
        rw [hmore, Option.orElse_some] at h
        obtain ⟨read, stop, hreads, hk, hfurther⟩ := ih hless (hmore.trans h)
        exact ⟨c :: read, stop, hread.trans hreads, hk, hfurther⟩
      | none =>
        -- Had the work that is left succeeded further on, the repetition would have gone on.
        rw [hmore, Option.orElse_none] at h
        refine ⟨[], cur, .refl _, h, fun more further hne hall hreads => ?_⟩
        obtain ⟨d, more, rfl⟩ := List.exists_cons_of_ne_nil hne
        obtain ⟨hd, hall⟩ := List.forall_mem_cons.mp hall
        obtain ⟨next', hnext, -, hrest⟩ := hreads.exists_step hd
        obtain rfl := Option.some.inj (hstep.symm.trans hnext)
        by_contra hsome
        have hlength : more.length ≤ fuel := by
          rw [hrest.rest, List.length_append] at hless
          exact Nat.le_trans (Nat.le_add_right _ _) hless
        have hagain :=
          isSome_again_of_reads (Option.isSome_iff_ne_none.mpr hsome) hrest hall hlength
        rw [hmore] at hagain
        cases hagain

/-- A repetition reads as many characters as the rest of the work can do with. -/
theorem exists_longest_of_star {x : α} (h : run (star true (.set s)) cur gs k = some x) :
    Longest s cur gs k x := by
  refine exists_longest_of_again (Nat.le_refl _) ?_
  rw [← h]
  obtain ⟨pos, last, _ | ⟨c, cs⟩⟩ := cur
  · rfl
  · rw [star, run, run, run_set, if_pos (Nat.lt_succ_self pos), List.length_cons, again, run_set]
    simp only [if_pos (Nat.lt_succ_self pos)]

theorem holds_textEnd (h : cur.rest = []) : Assertion.textEnd.holds cur = true := by
  rw [Assertion.holds, h]
  rfl

theorem run_literal_of_reads (hread : cur.Reads marker cur') :
    run (literal marker) cur gs k = k cur' gs := by
  induction marker generalizing cur with
  | nil =>
    obtain rfl := hread.eq_of_nil
    rfl
  | cons c marker ih =>
    have hc : (CharSet.single c).mem c = true := by simp
    obtain ⟨next, hstep, -, hrest⟩ := hread.exists_step hc
    rw [literal, run, char, run, hstep, Option.bind_some]
    exact ih hrest

end Regex

open Cursor Regex in
/-- In front of a marker the rest of the pattern matches. -/
theorem Regex.isSome_run_of_marker {α : Type} {cur : Cursor} {gs : Groups}
    {k : Cursor → Groups → Option α} {marker right : List Char}
    (hk : ∀ cur gs, (k cur gs).isSome = true) (hrest : cur.rest = marker ++ right) :
    (run (.ofList [.group 2 (.literal marker), .group 3 Pattern.anything, .look .textEnd])
      cur gs k).isSome = true := by
  obtain ⟨cur₁, hmarker, hright⟩ := exists_reads hrest
  obtain ⟨cur₂, hreads, hend⟩ := exists_reads (hright.trans (List.append_nil right).symm)
  simp only [ofList, run]
  rw [run_literal_of_reads hmarker]
  refine isSome_star_of_reads ?_ hreads fun _ _ => rfl
  rw [if_pos (holds_textEnd hend)]
  exact hk _ _

open Cursor Regex in
/-- A marker splits a text wherever it occurs. -/
theorem Pattern.accepts_splitting (left marker right : List Char) :
    (Pattern.splitting marker).accepts (left ++ marker ++ right) = true := by
  have hleft := reads_start left (marker ++ right)
  rw [accepts, splitting, ofList, find_of_textStart, List.append_assoc]
  exact isSome_star_of_reads (isSome_run_of_marker (fun _ _ => rfl) rfl) hleft fun _ _ => rfl

open Cursor Regex in
theorem Pattern.accepts_leading {rest : List Char} (marker : List Char) (hne : rest ≠ [])
    (hrest : Spaceless rest) : (Pattern.leading marker).accepts (marker ++ rest) = true := by
  obtain ⟨cur₁, hmarker, hbehind⟩ :=
    exists_reads (rfl : (start (marker ++ rest)).rest = marker ++ rest)
  obtain ⟨cur₂, hreads, hend⟩ := exists_reads (hbehind.trans (List.append_nil rest).symm)
  rw [accepts, leading, ofList, find_of_textStart, matchAt]
  simp only [ofList, run]
  rw [if_pos (show Assertion.textStart.holds _ = true from rfl), ← start,
    run_literal_of_reads hmarker]
  refine isSome_plus_of_reads ?_ hreads hne fun c hc => by simpa using hrest c hc
  rw [if_pos (holds_textEnd hend)]
  rfl

open Cursor Regex in
theorem Pattern.accepts_trailing {rest : List Char} (marker : List Char) (hne : rest ≠ [])
    (hrest : Spaceless rest) : (Pattern.trailing marker).accepts (rest ++ marker) = true := by
  obtain ⟨cur₁, hreads, hbehind⟩ :=
    exists_reads (rfl : (start (rest ++ marker)).rest = rest ++ marker)
  obtain ⟨cur₂, hmarker, hend⟩ := exists_reads (hbehind.trans (List.append_nil marker).symm)
  rw [accepts, trailing, ofList, find_of_textStart, matchAt]
  simp only [ofList, run]
  rw [if_pos (show Assertion.textStart.holds _ = true from rfl), ← start]
  refine isSome_plus_of_reads ?_ hreads hne fun c hc => by simpa using hrest c hc
  rw [run_literal_of_reads hmarker, if_pos (holds_textEnd hend)]
  rfl

/-- An occurrence of a marker behind which no other starts. -/
structure LastOccurrence (marker text left right : List Char) : Prop where
  text_eq : text = left ++ marker ++ right
  last : ∀ left' right', text = left' ++ marker ++ right' → left'.length ≤ left.length

theorem LastOccurrence.unique {marker text left right left' right' : List Char}
    (h : LastOccurrence marker text left right) (h' : LastOccurrence marker text left' right') :
    left' = left ∧ right' = right := by
  have hlength := Nat.le_antisymm (h.last _ _ h'.text_eq) (h'.last _ _ h.text_eq)
  have heq := h'.text_eq.symm.trans h.text_eq
  rw [List.append_assoc, List.append_assoc] at heq
  obtain ⟨hleft, hright⟩ := List.append_inj heq hlength
  exact ⟨hleft, List.append_cancel_left hright⟩

open Cursor Regex in
/-- It is the last occurrence of a separating marker that is found. -/
theorem Pattern.lastOccurrence_of_find {marker text : List Char} {m : Match}
    (h : (splitting marker).find text = some m) :
    ∃ left right, LastOccurrence marker text left right ∧ m.text? text 0 = some text ∧
      m.text? text 1 = some left ∧ m.text? text 2 = some marker ∧ m.text? text 3 = some right := by
  rw [splitting, ofList, find_of_textStart] at h
  have hrun : run (star true (.set .all)) (start text) [] (fun cur gs =>
      run (.ofList [.group 2 (.literal marker), .group 3 anything, .look .textEnd]) cur
        ((1, 0, cur.pos) :: gs) fun cur' gs' => some ⟨0, cur'.pos, gs'⟩) = some m := h
  obtain ⟨left, cur, hread, hk, hfurther⟩ := exists_longest_of_star hrun
  obtain ⟨cur', gs, hwalks, hm⟩ := leads_of_run hk
  obtain ⟨right, htext, htexts⟩ := exists_of_walks_splitting hread (Option.some.inj hm).symm hwalks
  refine ⟨left, right, ⟨htext, fun left' right' htext' => ?_⟩, htexts⟩
  -- From an occurrence further on the rest of the pattern matches, too.
  by_contra hlonger
  have hleft : left <+: text := ⟨marker ++ right, by rw [htext, List.append_assoc]⟩
  have hleft' : left' <+: text := ⟨marker ++ right', by rw [htext', List.append_assoc]⟩
  obtain ⟨more, rfl⟩ := List.prefix_of_prefix_length_le hleft hleft' (Nat.le_of_not_le hlonger)
  have hne : more ≠ [] := by
    rintro rfl
    exact hlonger (Nat.le_of_eq (congrArg List.length (List.append_nil left)))
  have hrest : cur.rest = more ++ (marker ++ right') := by
    have hboth := hread.text_of_start.symm.trans htext'
    rw [List.append_assoc, List.append_assoc] at hboth
    exact List.append_cancel_left hboth
  obtain ⟨further, hreads, hbehind⟩ := exists_reads hrest
  have hnone := hfurther more further hne (fun _ _ => rfl) hreads
  refine absurd hnone (Option.isSome_iff_ne_none.mp ?_)
  exact isSome_run_of_marker (fun _ _ => rfl) hbehind

namespace TokenKind

variable {marker : String} {tight : Bool} {text : List Char}

theorem exists_cut?_separator (hne : marker.toList ≠ []) (tight : Bool) (left right : List Char) :
    ∃ cut, (separator marker tight).cut? (left ++ marker.toList ++ right) = some cut := by
  obtain ⟨m, hfind⟩ :=
    Option.isSome_iff_exists.mp (Pattern.accepts_splitting left marker.toList right)
  obtain ⟨before, behind, -, hbefore, hmarker, hbehind⟩ := Pattern.exists_of_find_splitting hfind
  have hgroups : (Pattern.splitting marker.toList).groups = 3 := rfl
  refine ⟨⟨before, marker.toList, behind⟩, ?_⟩
  simp only [cut?, split?, Option.bind_some, hfind, hgroups, hbefore, hmarker, hbehind,
    Option.map_some]
  rw [if_neg (by decide), if_pos trivial, Option.getD_some, Option.getD_some, Option.filter_some,
    if_pos (by simpa using hne)]

/-- A marker is cut out of exactly the texts that contain it. -/
theorem cut?_separator_eq_none (hne : marker.toList ≠ []) :
    (separator marker tight).cut? text = none ↔ ¬marker.toList <:+: text := by
  constructor
  · rintro hnone ⟨left, right, rfl⟩
    obtain ⟨cut, hcut⟩ := exists_cut?_separator hne tight left right
    exact absurd (hnone.symm.trans hcut) nofun
  · intro hnot
    rw [Option.eq_none_iff_forall_ne_some]
    intro cut hcut
    obtain ⟨hmarker, htext⟩ := eq_of_cut?_separator hcut
    rw [hmarker] at htext
    exact hnot ⟨cut.left, cut.right, htext.symm⟩

end TokenKind

end GrammarGraph
