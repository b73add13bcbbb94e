import GrammarGraph.Token.Registry
import Mathlib.Data.List.TakeDrop

/-!
# What a pattern matches

Which of its ways an expression takes is a matter of preference; where it can end up is
not.  `Regex.Walks` says the latter without continuations, and everything a match promises
is read off a walk (`Pattern.exists_walks_of_find`): it ends at or behind its start, and
each group lies within it.

* `TokenKind.eq_of_cut?`: a separator cuts a text into the parts it consists of.
* `TokenKind.exists_of_remainingRight?`, `TokenKind.exists_of_remainingLeft?`: a marker and the rest
  are the whole text.
-/

namespace GrammarGraph

/-- A text without white space. -/
def Spaceless (text : List Char) : Prop := ∀ c ∈ text, Text.isSpace c = false

instance (text : List Char) : Decidable (Spaceless text) :=
  List.decidableBAll (Text.isSpace · = false) text

namespace Cursor

variable {cur cur₁ cur₂ cur₃ : Cursor} {set : CharSet} {read read' text : List Char}

/-- From one place to a later one these characters are read. -/
structure Reads (cur₁ : Cursor) (read : List Char) (cur₂ : Cursor) : Prop where
  rest : cur₁.rest = read ++ cur₂.rest
  pos : cur₂.pos = cur₁.pos + read.length
  last : cur₂.last = read.getLast?.or cur₁.last

theorem Reads.refl (cur : Cursor) : cur.Reads [] cur := ⟨rfl, rfl, rfl⟩

theorem Reads.trans (h : cur₁.Reads read cur₂) (h' : cur₂.Reads read' cur₃) :
    cur₁.Reads (read ++ read') cur₃ where
  rest := by rw [h.rest, h'.rest, List.append_assoc]
  pos := by rw [h'.pos, h.pos, List.length_append, Nat.add_assoc]
  last := by rw [h'.last, h.last, List.getLast?_append, Option.or_assoc]

theorem reads_of_step? (h : cur₁.step? set = some cur₂) :
    ∃ c, set.mem c = true ∧ cur₁.Reads [c] cur₂ := by
  unfold step? at h
  split at h
  · exact absurd h nofun
  · next c cs hrest =>
    split at h
    · next hc =>
      obtain rfl := Option.some.inj h
      exact ⟨c, hc, hrest, rfl, rfl⟩
    · exact absurd h nofun

/-- A place in a text is one to which it can be read. -/
def In (cur : Cursor) (text : List Char) : Prop := ∃ read, (start text).Reads read cur

theorem Reads.pos_of_start (h : (start text).Reads read cur) : cur.pos = read.length :=
  h.pos.trans (Nat.zero_add _)

theorem Reads.text_of_start (h : (start text).Reads read cur) : text = read ++ cur.rest := h.rest

/-- Only at its start nothing has been read. -/
theorem In.eq_start (h : cur.In text) (hlast : cur.last = none) : cur = start text := by
  obtain ⟨read, hrest, hpos, hread⟩ := h
  rw [hlast, start, Option.or_none, eq_comm, List.getLast?_eq_none_iff] at hread
  obtain ⟨pos, last, rest⟩ := cur
  subst hread hlast
  simp only [start, List.nil_append, List.length_nil] at hrest hpos
  rw [start, hrest, hpos]

end Cursor

namespace Regex

variable {α : Type} {r s : Regex} {cur cur' : Cursor} {gs gs' : Groups}
  {k : Cursor → Groups → Option α} {x : α} {greedy : Bool}

/-! ## Walks -/

/-- An expression can lead from one place to another, closing groups on the way. -/
inductive Walks : Regex → Cursor → Groups → Cursor → Groups → Prop
  | empty {cur : Cursor} {gs : Groups} : Walks .empty cur gs cur gs
  | set {s : CharSet} {cur cur' : Cursor} {gs : Groups} : cur.step? s = some cur' →
      Walks (.set s) cur gs cur' gs
  | look {a : Assertion} {cur : Cursor} {gs : Groups} : a.holds cur = true →
      Walks (.look a) cur gs cur gs
  | seq {r s : Regex} {cur₁ cur₂ cur₃ : Cursor} {gs₁ gs₂ gs₃ : Groups} :
      Walks r cur₁ gs₁ cur₂ gs₂ → Walks s cur₂ gs₂ cur₃ gs₃ → Walks (.seq r s) cur₁ gs₁ cur₃ gs₃
  | left {r s : Regex} {cur cur' : Cursor} {gs gs' : Groups} : Walks r cur gs cur' gs' →
      Walks (.alt r s) cur gs cur' gs'
  | right {r s : Regex} {cur cur' : Cursor} {gs gs' : Groups} :
      Walks s cur gs cur' gs' → Walks (.alt r s) cur gs cur' gs'
  | group {i : Nat} {r : Regex} {cur cur' : Cursor} {gs gs' : Groups} :
      Walks r cur gs cur' gs' → Walks (.group i r) cur gs cur' ((i, cur.pos, cur'.pos) :: gs')
  | skipped {greedy : Bool} {r : Regex} {cur : Cursor}
      {gs : Groups} : Walks (.opt greedy r) cur gs cur gs
  | taken {greedy : Bool} {r : Regex} {cur cur' : Cursor} {gs gs' : Groups} :
      Walks r cur gs cur' gs' → Walks (.opt greedy r) cur gs cur' gs'
  | once {greedy : Bool} {r : Regex} {cur cur' : Cursor} {gs gs' : Groups} :
      Walks r cur gs cur' gs' → Walks (.plus greedy r) cur gs cur' gs'
  | again {greedy : Bool} {r : Regex} {cur₁ cur₂ cur₃ : Cursor} {gs₁ gs₂ gs₃ : Groups} :
      Walks r cur₁ gs₁ cur₂ gs₂ → Walks (.plus greedy r) cur₂ gs₂ cur₃ gs₃ →
        Walks (.plus greedy r) cur₁ gs₁ cur₃ gs₃
  | never {r : Regex} {cur : Cursor} {gs : Groups} : Walks (.exactly 0 r) cur gs cur gs
  | times {n : Nat} {r : Regex} {cur₁ cur₂ cur₃ : Cursor} {gs₁ gs₂ gs₃ : Groups} :
      Walks r cur₁ gs₁ cur₂ gs₂ → Walks (.exactly n r) cur₂ gs₂ cur₃ gs₃ →
        Walks (.exactly (n + 1) r) cur₁ gs₁ cur₃ gs₃
  | enough {greedy : Bool} {n : Nat} {r : Regex} {cur : Cursor}
      {gs : Groups} : Walks (.upTo greedy n r) cur gs cur gs
  | oneMore {greedy : Bool} {n : Nat} {r : Regex} {cur₁ cur₂ cur₃ : Cursor} {gs₁ gs₂ gs₃ : Groups} :
      Walks r cur₁ gs₁ cur₂ gs₂ → Walks (.upTo greedy n r) cur₂ gs₂ cur₃ gs₃ →
        Walks (.upTo greedy (n + 1) r) cur₁ gs₁ cur₃ gs₃

/-- Of two ways to go on one was taken. -/
theorem eq_some_of_prefer {first : Bool} {a b : Unit → Option α} (h : prefer first a b = some x) :
    a () = some x ∨ b () = some x := by
  unfold prefer at h
  split at h <;> cases ha : a () <;> cases hb : b () <;> simp_all

/-- The work passed along starts where a walk ended. -/
def Leads (r : Regex) (cur : Cursor) (gs : Groups) (k : Cursor → Groups → Option α)
    (x : α) : Prop :=
  ∃ cur' gs', Walks r cur gs cur' gs' ∧ k cur' gs' = some x

section Repetitions

variable (hr : ∀ {cur : Cursor} {gs : Groups} {k : Cursor → Groups → Option α},
  run r cur gs k = some x → Leads r cur gs k x)

include hr

/-- Behind an iteration there may be more of them. -/
theorem leads_of_again {fuel : Nat} {cur : Cursor} {gs : Groups}
    (h : again (run r) greedy fuel cur gs k = some x) :
    k cur gs = some x ∨ Leads (.plus greedy r) cur gs k x := by
  induction fuel generalizing cur gs with
  | zero => exact .inl h
  | succ fuel ih =>
    rcases eq_some_of_prefer h with h | h
    · obtain ⟨cur₁, gs₁, hwalks, h⟩ := hr h
      simp only at h
      split at h
      · rcases ih h with hk | ⟨cur₂, gs₂, hmore, hk⟩
        · exact .inr ⟨cur₁, gs₁, .once hwalks, hk⟩
        · exact .inr ⟨cur₂, gs₂, .again hwalks hmore, hk⟩
      · exact absurd h nofun
    · exact .inl h

theorem leads_of_times {n : Nat} {cur : Cursor} {gs : Groups}
    (h : times (run r) n cur gs k = some x) : Leads (.exactly n r) cur gs k x := by
  induction n generalizing cur gs with
  | zero => exact ⟨cur, gs, .never, h⟩
  | succ n ih =>
    obtain ⟨cur₁, gs₁, hwalks, h⟩ := hr h
    obtain ⟨cur₂, gs₂, hmore, hk⟩ := ih h
    exact ⟨cur₂, gs₂, .times hwalks hmore, hk⟩

theorem leads_of_atMost {n : Nat} {cur : Cursor} {gs : Groups}
    (h : atMost (run r) greedy n cur gs k = some x) : Leads (.upTo greedy n r) cur gs k x := by
  induction n generalizing cur gs with
  | zero => exact ⟨cur, gs, .enough, h⟩
  | succ n ih =>
    rcases eq_some_of_prefer h with h | h
    · obtain ⟨cur₁, gs₁, hwalks, h⟩ := hr h
      obtain ⟨cur₂, gs₂, hmore, hk⟩ := ih h
      exact ⟨cur₂, gs₂, .oneMore hwalks hmore, hk⟩
    · exact ⟨cur, gs, .enough, h⟩

end Repetitions

/-- A match goes along a walk. -/
theorem leads_of_run (h : run r cur gs k = some x) : Leads r cur gs k x := by
  induction r generalizing cur gs k with
  | empty => exact ⟨cur, gs, .empty, h⟩
  | set s =>
    obtain ⟨cur', hstep, hk⟩ := Option.bind_eq_some_iff.mp h
    exact ⟨cur', gs, .set hstep, hk⟩
  | look a =>
    rw [run] at h
    split at h
    · next ha => exact ⟨cur, gs, .look ha, h⟩
    · exact absurd h nofun
  | seq r s ihr ihs =>
    obtain ⟨cur₁, gs₁, hr, h⟩ := ihr h
    obtain ⟨cur₂, gs₂, hs, hk⟩ := ihs h
    exact ⟨cur₂, gs₂, .seq hr hs, hk⟩
  | alt r s ihr ihs =>
    rcases eq_some_of_prefer h with h | h
    · obtain ⟨cur', gs', hr, hk⟩ := ihr h
      exact ⟨cur', gs', .left hr, hk⟩
    · obtain ⟨cur', gs', hs, hk⟩ := ihs h
      exact ⟨cur', gs', .right hs, hk⟩
  | group i r ih =>
    obtain ⟨cur', gs', hr, hk⟩ := ih h
    exact ⟨cur', _, .group hr, hk⟩
  | opt greedy r ih =>
    rcases eq_some_of_prefer h with h | h
    · obtain ⟨cur', gs', hr, hk⟩ := ih h
      exact ⟨cur', gs', .taken hr, hk⟩
    · exact ⟨cur, gs, .skipped, h⟩
  | plus greedy r ih =>
    obtain ⟨cur₁, gs₁, hr, h⟩ := ih h
    simp only at h
    split at h
    · rcases leads_of_again ih h with hk | ⟨cur₂, gs₂, hmore, hk⟩
      · exact ⟨cur₁, gs₁, .once hr, hk⟩
      · exact ⟨cur₂, gs₂, .again hr hmore, hk⟩
    · exact ⟨cur₁, gs₁, .once hr, h⟩
  | exactly n r ih => exact leads_of_times ih h
  | upTo greedy n r ih => exact leads_of_atMost ih h

/-! ## Where a walk leads -/

/-- A walk reads the characters it passes. -/
theorem Walks.reads (h : Walks r cur gs cur' gs') : ∃ read, cur.Reads read cur' := by
  induction h with
  | empty | look | skipped | never | enough => exact ⟨[], .refl _⟩
  | set hstep =>
    obtain ⟨c, -, hreads⟩ := Cursor.reads_of_step? hstep
    exact ⟨[c], hreads⟩
  | left _ ih | right _ ih | group _ ih | taken _ ih | once _ ih => exact ih
  | seq _ _ ih₁ ih₂ | again _ _ ih₁ ih₂ | times _ _ ih₁ ih₂ | oneMore _ _ ih₁ ih₂ =>
    obtain ⟨read, hread⟩ := ih₁
    obtain ⟨read', hread'⟩ := ih₂
    exact ⟨read ++ read', hread.trans hread'⟩

theorem Walks.pos_le (h : Walks r cur gs cur' gs') : cur.pos ≤ cur'.pos := by
  obtain ⟨read, hread⟩ := h.reads
  exact Nat.le.intro hread.pos.symm

/-- The groups that a walk closes lie within it. -/
theorem Walks.groups (h : Walks r cur gs cur' gs') : ∃ closed, gs' = closed ++ gs ∧
    ∀ g ∈ closed, cur.pos ≤ g.2.1 ∧ g.2.1 ≤ g.2.2 ∧ g.2.2 ≤ cur'.pos := by
  induction h with
  | empty | set | look | skipped | never | enough => exact ⟨[], rfl, nofun⟩
  | left _ ih | right _ ih | taken _ ih | once _ ih => exact ih
  | @group i r cur cur' gs gs' hwalks ih =>
    obtain ⟨closed, rfl, hwithin⟩ := ih
    refine ⟨(i, cur.pos, cur'.pos) :: closed, rfl, ?_⟩
    rintro g (_ | ⟨_, hg⟩)
    · exact ⟨Nat.le_refl _, hwalks.pos_le, Nat.le_refl _⟩
    · exact hwithin g hg
  | seq hr hs ih₁ ih₂ | again hr hs ih₁ ih₂ | times hr hs ih₁ ih₂ | oneMore hr hs ih₁ ih₂ =>
    obtain ⟨closed, rfl, hwithin⟩ := ih₁
    obtain ⟨closed', rfl, hwithin'⟩ := ih₂
    refine ⟨closed' ++ closed, (List.append_assoc _ _ _).symm, fun g hg => ?_⟩
    rcases List.mem_append.mp hg with hg | hg
    · obtain ⟨hstart, hgroup, hstop⟩ := hwithin' g hg
      exact ⟨Nat.le_trans hr.pos_le hstart, hgroup, hstop⟩
    · obtain ⟨hstart, hgroup, hstop⟩ := hwithin g hg
      exact ⟨hstart, hgroup, Nat.le_trans hstop hs.pos_le⟩

/-! ## Characters and markers -/

theorem Walks.of_literal {marker : List Char} (h : Walks (literal marker) cur gs cur' gs') :
    cur.Reads marker cur' ∧ gs' = gs := by
  induction marker generalizing cur gs with
  | nil =>
    obtain ⟨⟩ := h
    exact ⟨.refl _, rfl⟩
  | cons c cs ih =>
    obtain _ | _ | _ | @⟨_, _, _, cur₁, _, _, gs₁, _, hchar, hrest⟩ := h
    obtain ⟨hreads, rfl⟩ := ih hrest
    rw [char] at hchar
    obtain _ | hstep := hchar
    obtain ⟨d, hd, hread⟩ := Cursor.reads_of_step? hstep
    obtain rfl := eq_of_beq (CharSet.mem_single c d ▸ hd)
    exact ⟨hread.trans hreads, rfl⟩

/-- One character after the other, at least one, and all of the set. -/
theorem Walks.of_plus_set {set : CharSet} (h : Walks (.plus greedy (.set set)) cur gs cur' gs') :
    ∃ read, read ≠ [] ∧ (∀ c ∈ read, set.mem c = true) ∧ cur.Reads read cur' ∧ gs' = gs := by
  generalize hr : Regex.plus greedy (.set set) = r at h
  induction h with
  | once hset =>
    obtain ⟨rfl, rfl⟩ := plus.inj hr
    obtain _ | hstep := hset
    obtain ⟨c, hc, hread⟩ := Cursor.reads_of_step? hstep
    exact ⟨[c], List.cons_ne_nil _ _, List.forall_mem_singleton.mpr hc, hread, rfl⟩
  | again hset _ _ ih =>
    obtain ⟨rfl, rfl⟩ := plus.inj hr
    obtain _ | hstep := hset
    obtain ⟨c, hc, hread⟩ := Cursor.reads_of_step? hstep
    obtain ⟨read, -, hall, hmore, rfl⟩ := ih rfl
    exact ⟨c :: read, List.cons_ne_nil _ _, List.forall_mem_cons.mpr ⟨hc, hall⟩, hread.trans hmore,
      rfl⟩
  | _ => exact absurd hr nofun

/-- At least one character, and none of them white space. -/
theorem Walks.of_nonBlanks (h : Walks Pattern.nonBlanks cur gs cur' gs') :
    ∃ read, read ≠ [] ∧ Spaceless read ∧ cur.Reads read cur' ∧ gs' = gs := by
  obtain ⟨read, hne, hall, hread, hgroups⟩ := h.of_plus_set
  exact ⟨read, hne, fun c hc => by simpa using hall c hc, hread, hgroups⟩

theorem Walks.of_anything (h : Walks Pattern.anything cur gs cur' gs') :
    ∃ read, cur.Reads read cur' ∧ gs' = gs := by
  rw [Pattern.anything, star] at h
  cases h with
  | skipped => exact ⟨[], .refl _, rfl⟩
  | taken h =>
    obtain ⟨read, -, -, hread, rfl⟩ := h.of_plus_set
    exact ⟨read, hread, rfl⟩

theorem Walks.of_seq (h : Walks (.seq r s) cur gs cur' gs') :
    ∃ cur₁ gs₁, Walks r cur gs cur₁ gs₁ ∧ Walks s cur₁ gs₁ cur' gs' := by
  cases h with
  | seq hr hs => exact ⟨_, _, hr, hs⟩

/-- Behind a group the walk goes on with the group closed. -/
theorem Walks.of_group_seq {i : Nat} (h : Walks (.seq (.group i r) s) cur gs cur' gs') :
    ∃ cur₁ gs₁, Walks r cur gs cur₁ gs₁ ∧
      Walks s cur₁ ((i, cur.pos, cur₁.pos) :: gs₁) cur' gs' := by
  obtain ⟨cur₁, gs₁, hgroup, hs⟩ := h.of_seq
  cases hgroup with
  | group hr => exact ⟨cur₁, _, hr, hs⟩

theorem Walks.of_look {a : Assertion} (h : Walks (.look a) cur gs cur' gs') :
    cur' = cur ∧ gs' = gs ∧ a.holds cur = true := by
  cases h with
  | look ha => exact ⟨rfl, rfl, ha⟩

/-- A pattern tied to the end of the text stops there. -/
theorem Walks.of_textEnd (h : Walks (.seq (.look .textEnd) .empty) cur gs cur' gs') :
    cur' = cur ∧ gs' = gs ∧ cur.rest = [] := by
  obtain ⟨cur₁, gs₁, hlook, hempty⟩ := h.of_seq
  obtain ⟨rfl, rfl, hend⟩ := hlook.of_look
  cases hempty
  exact ⟨rfl, rfl, List.isEmpty_iff.mp hend⟩

/-- A pattern tied to the start of the text starts there. -/
theorem Walks.of_textStart {text : List Char} (hcur : cur.In text)
    (h : Walks (.seq (.look .textStart) r) cur gs cur' gs') :
    cur = Cursor.start text ∧ Walks r (Cursor.start text) gs cur' gs' := by
  obtain ⟨cur₁, gs₁, hlook, hr⟩ := h.of_seq
  obtain ⟨rfl, rfl, hstart⟩ := hlook.of_look
  obtain rfl := hcur.eq_start (Option.isNone_iff_eq_none.mp hstart)
  exact ⟨rfl, hr⟩

end Regex

/-! ## Matches -/

namespace Pattern

open Regex

variable {p : Pattern} {text marker : List Char} {m : Match}

/-- A match is a walk from some place in the text. -/
theorem exists_walks_of_find (h : p.find text = some m) :
    ∃ cur cur' gs, cur.In text ∧ Walks p.regex cur [] cur' gs ∧ m = ⟨cur.pos, cur'.pos, gs⟩ := by
  have hat : ∀ {cur : Cursor} {m : Match}, cur.In text → p.matchAt cur = some m →
      ∃ cur cur' gs, cur.In text ∧ Walks p.regex cur [] cur' gs ∧ m = ⟨cur.pos, cur'.pos, gs⟩ := by
    intro cur m hcur hmatch
    obtain ⟨cur', gs, hwalks, hm⟩ := leads_of_run hmatch
    exact ⟨cur, cur', gs, hcur, hwalks, (Option.some.inj hm).symm⟩
  have key : ∀ (rest : List Char) (pos : Nat) (last : Option Char)
      {m : Match}, Cursor.In ⟨pos, last, rest⟩ text → p.findFrom pos last rest = some m →
      ∃ cur cur' gs, cur.In text ∧ Walks p.regex cur [] cur' gs ∧ m = ⟨cur.pos, cur'.pos, gs⟩ := by
    intro rest
    induction rest with
    | nil => exact fun _ _ _ hcur hmatch => hat hcur hmatch
    | cons c cs ih =>
      intro pos last m hcur hmatch
      rw [findFrom] at hmatch
      cases hhere : p.matchAt ⟨pos, last, c :: cs⟩ with
      | some m' =>
        rw [hhere, Option.orElse_some] at hmatch
        exact hat hcur (hhere.trans hmatch)
      | none =>
        rw [hhere, Option.orElse_none] at hmatch
        obtain ⟨read, hread⟩ := hcur
        exact ih (pos + 1) (some c) ⟨read ++ [c], hread.trans ⟨rfl, rfl, rfl⟩⟩ hmatch
  exact key text 0 none ⟨[], .refl _⟩ h

/-- A group lies within the text. -/
theorem group_le_of_find {i start stop : Nat} (h : p.find text = some m)
    (hg : m.group? i = some (start, stop)) : start ≤ stop ∧ stop ≤ text.length := by
  obtain ⟨cur, cur', gs, ⟨read, hread⟩, hwalks, rfl⟩ := exists_walks_of_find h
  have hstop : cur'.pos ≤ text.length := by
    obtain ⟨read', hread'⟩ := hwalks.reads
    have hfront : read ++ read' <+: text := ⟨_, (hread.trans hread').text_of_start.symm⟩
    rw [(hread.trans hread').pos_of_start]
    exact hfront.length_le
  rw [Match.group?] at hg
  split at hg
  · obtain ⟨rfl, rfl⟩ := Prod.mk.inj (Option.some.inj hg)
    exact ⟨hwalks.pos_le, hstop⟩
  · obtain ⟨⟨j, offsets⟩, hfind, rfl⟩ := Option.map_eq_some_iff.mp hg
    obtain ⟨closed, rfl, hwithin⟩ := hwalks.groups
    rw [List.append_nil] at hfind
    obtain ⟨-, hle, hle'⟩ := hwithin _ (List.mem_of_find?_eq_some hfind)
    exact ⟨hle, Nat.le_trans hle' hstop⟩

/-- Offsets of a part of a text. -/
theorem take_drop_append (before part behind : List Char) :
    ((before ++ part ++ behind).drop before.length).take ((before ++ part).length - before.length) =
      part := by
  rw [List.append_assoc, List.drop_left, List.length_append, Nat.add_sub_cancel_left,
    List.take_left]

/-- A match of a leading marker: the marker, and what follows it. -/
theorem exists_of_find_leading (h : (leading marker).find text = some m) :
    ∃ rest, rest ≠ [] ∧ Spaceless rest ∧ text = marker ++ rest ∧ m.text? text 2 = some rest := by
  obtain ⟨cur, cur', gs, hcur, hwalks, rfl⟩ := exists_walks_of_find h
  obtain ⟨rfl, hbody⟩ := hwalks.of_textStart hcur
  obtain ⟨cur₁, gs₁, hmarker, hbody⟩ := hbody.of_group_seq
  obtain ⟨hread, rfl⟩ := hmarker.of_literal
  obtain ⟨cur₂, gs₂, hrest, hbody⟩ := hbody.of_group_seq
  obtain ⟨rest, hne, hspaceless, hread', rfl⟩ := hrest.of_nonBlanks
  obtain ⟨rfl, rfl, hend⟩ := hbody.of_textEnd
  have htext := (hread.trans hread').text_of_start
  refine ⟨rest, hne, hspaceless, by rw [htext, hend, List.append_nil], ?_⟩
  show some ((text.drop cur₁.pos).take (cur'.pos - cur₁.pos)) = some rest
  rw [hread.pos_of_start, (hread.trans hread').pos_of_start, htext, take_drop_append]

/-- A match of a trailing marker: what stands before it, and the marker. -/
theorem exists_of_find_trailing (h : (trailing marker).find text = some m) :
    ∃ rest, rest ≠ [] ∧ Spaceless rest ∧ text = rest ++ marker ∧ m.text? text 1 = some rest := by
  obtain ⟨cur, cur', gs, hcur, hwalks, rfl⟩ := exists_walks_of_find h
  obtain ⟨rfl, hbody⟩ := hwalks.of_textStart hcur
  obtain ⟨cur₁, gs₁, hrest, hbody⟩ := hbody.of_group_seq
  obtain ⟨rest, hne, hspaceless, hread, rfl⟩ := hrest.of_nonBlanks
  obtain ⟨cur₂, gs₂, hmarker, hbody⟩ := hbody.of_group_seq
  obtain ⟨hread', rfl⟩ := hmarker.of_literal
  obtain ⟨rfl, rfl, hend⟩ := hbody.of_textEnd
  have htext := (hread.trans hread').text_of_start
  rw [hend, List.append_nil] at htext
  refine ⟨rest, hne, hspaceless, htext, ?_⟩
  show some ((text.drop 0).take (cur₁.pos - 0)) = some rest
  rw [hread.pos_of_start, htext, List.drop_zero, Nat.sub_zero, List.take_left]

/-- Behind the text before a separating marker: the marker, and the text behind it. -/
theorem exists_of_walks_splitting {cur cur' : Cursor} {gs : Groups} {left : List Char} {m : Match}
    (hread : (Cursor.start text).Reads left cur) (hm : m = ⟨0, cur'.pos, gs⟩)
    (h : Walks (.ofList [.group 2 (.literal marker), .group 3 anything, .look .textEnd])
      cur [(1, 0, cur.pos)] cur' gs) :
    ∃ right, text = left ++ marker ++ right ∧ m.text? text 0 = some text ∧
      m.text? text 1 = some left ∧ m.text? text 2 = some marker ∧ m.text? text 3 = some right := by
  obtain ⟨cur₂, gs₂, hmarker, hbody⟩ := h.of_group_seq
  obtain ⟨hread₂, rfl⟩ := hmarker.of_literal
  obtain ⟨cur₃, gs₃, hright, hbody⟩ := hbody.of_group_seq
  obtain ⟨right, hread₃, rfl⟩ := hright.of_anything
  obtain ⟨rfl, rfl, hend⟩ := hbody.of_textEnd
  have htext := (hread.trans hread₂).text_of_start
  have hbehind := hread₃.rest
  rw [hend, List.append_nil] at hbehind
  rw [hbehind] at htext
  subst hm
  refine ⟨right, htext, ?_, ?_, ?_, ?_⟩
  · show some ((text.drop 0).take (cur'.pos - 0)) = some text
    rw [((hread.trans hread₂).trans hread₃).pos_of_start, ← htext, List.drop_zero, Nat.sub_zero,
      List.take_length]
  · show some ((text.drop 0).take (cur.pos - 0)) = some left
    rw [hread.pos_of_start, htext, List.drop_zero, Nat.sub_zero, List.append_assoc, List.take_left]
  · show some ((text.drop cur.pos).take (cur₂.pos - cur.pos)) = some marker
    rw [hread.pos_of_start, (hread.trans hread₂).pos_of_start, htext, take_drop_append]
  · show some ((text.drop cur₂.pos).take (cur'.pos - cur₂.pos)) = some right
    rw [hread₃.pos, Nat.add_sub_cancel_left, (hread.trans hread₂).pos_of_start, htext,
      List.drop_left, List.take_length]

/-- A match of a separating marker: the text before an occurrence, the marker,
and the text behind it. -/
theorem exists_of_find_splitting (h : (splitting marker).find text = some m) :
    ∃ left right, text = left ++ marker ++ right ∧ m.text? text 1 = some left ∧
      m.text? text 2 = some marker ∧ m.text? text 3 = some right := by
  obtain ⟨cur, cur', gs, hcur, hwalks, rfl⟩ := exists_walks_of_find h
  obtain ⟨rfl, hbody⟩ := hwalks.of_textStart hcur
  obtain ⟨cur₁, gs₁, hleft, hbody⟩ := hbody.of_group_seq
  obtain ⟨left, hread, rfl⟩ := hleft.of_anything
  obtain ⟨right, htext, -, htexts⟩ := exists_of_walks_splitting hread rfl hbody
  exact ⟨left, right, htext, htexts⟩

end Pattern

/-! ## Markers -/

namespace TokenKind

open Pattern

variable {kind : TokenKind} {text rest : List Char} {cut : Cut}

/-- What a leading marker is cut off from is shorter. -/
theorem exists_of_remainingRight? (h : kind.remainingRight? text = some rest) :
    ∃ marker, kind = .leading marker ∧ text = marker.toList ++ rest ∧ rest ≠ [] := by
  cases kind with
  | leading marker =>
    obtain ⟨m, hfind, hm⟩ := Option.bind_eq_some_iff.mp h
    obtain ⟨rest', hne, -, htext, hrest⟩ := exists_of_find_leading hfind
    obtain rfl := Option.some.inj (hrest.symm.trans hm)
    exact ⟨marker, rfl, htext, hne⟩
  | _ => exact absurd h nofun

theorem exists_of_remainingLeft? (h : kind.remainingLeft? text = some rest) :
    ∃ marker, kind = .trailing marker ∧ text = rest ++ marker.toList ∧ rest ≠ [] := by
  cases kind with
  | trailing marker =>
    obtain ⟨m, hfind, hm⟩ := Option.bind_eq_some_iff.mp h
    obtain ⟨rest', hne, -, htext, hrest⟩ := exists_of_find_trailing hfind
    obtain rfl := Option.some.inj (hrest.symm.trans hm)
    exact ⟨marker, rfl, htext, hne⟩
  | _ => exact absurd h nofun

end TokenKind

/-- The first type that cuts something off. -/
theorem exists_of_findSome? {types : List TokenType} {cutOff : TokenType → Option (List Char)}
    {t : TokenType} {rest : List Char}
    (h : types.findSome? (fun t => (cutOff t).map (t, ·)) = some (t, rest)) :
    t ∈ types ∧ cutOff t = some rest := by
  obtain ⟨u, hu, hrest⟩ := List.exists_of_findSome?_eq_some h
  obtain ⟨_, hcut, heq⟩ := Option.map_eq_some_iff.mp hrest
  obtain ⟨rfl, rfl⟩ := Prod.mk.inj heq
  exact ⟨hu, hcut⟩

end GrammarGraph
