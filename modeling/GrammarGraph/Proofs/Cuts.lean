import GrammarGraph.Proofs.Chunks
import GrammarGraph.Proofs.Matching

/-!
# Cutting a text into spans

Separators cut a text into the spans it consists of, one after the other
(`Splitter.flatMap_text_split`), and neither taking back a cut inside a literal nor
merging texts changes that.
-/

namespace GrammarGraph

namespace TokenKind

open Pattern

variable {kind : TokenKind} {text : List Char} {cut : Cut}

/-- What the kind cuts out of a text is cut off from the text before it and behind it.  A pattern
with three groups may drop what is outside of them. -/
def Slices : TokenKind → Prop
  | patternSeparator _ pattern => pattern.groups ≤ 1
  | _ => True

/-- A marker cuts out itself. -/
theorem eq_of_cut?_separator {marker : String} {tight : Bool}
    (h : (TokenKind.separator marker tight).cut? text = some cut) :
    cut.marker = marker.toList ∧ text = cut.left ++ cut.marker ++ cut.right := by
  obtain ⟨p, hp, h⟩ := Option.bind_eq_some_iff.mp h
  obtain rfl := Option.some.inj hp
  obtain ⟨m, hfind, h⟩ := Option.bind_eq_some_iff.mp h
  obtain ⟨left, right, htext, hleft, hmarker, hright⟩ := exists_of_find_splitting hfind
  have hcut := (Option.filter_eq_some_iff.mp h).1
  have hgroups : (splitting marker.toList).groups = 3 := rfl
  rw [hgroups, if_neg (by decide), if_pos rfl, hleft, hmarker, hright] at hcut
  obtain rfl := Option.some.inj hcut
  exact ⟨rfl, htext⟩

/-- A pattern without groups cuts out its match, and one with a group cuts out that. -/
theorem eq_of_cut?_pattern {name : String} {p : Pattern} (hp : p.groups ≤ 1)
    (h : (TokenKind.patternSeparator name p).cut? text = some cut) :
    text = cut.left ++ cut.marker ++ cut.right := by
  obtain ⟨p', hp', h⟩ := Option.bind_eq_some_iff.mp h
  obtain rfl := Option.some.inj hp'
  obtain ⟨m, hfind, h⟩ := Option.bind_eq_some_iff.mp h
  have hcut := (Option.filter_eq_some_iff.mp h).1
  rw [if_pos (Nat.le_one_iff_eq_zero_or_eq_one.mp hp)] at hcut
  obtain ⟨⟨start, stop⟩, hgroup, rfl⟩ := Option.map_eq_some_iff.mp hcut
  obtain ⟨hle, -⟩ := group_le_of_find hfind hgroup
  have hstop : stop - start + start = stop := Nat.sub_add_cancel hle
  calc text = text.take start ++ text.drop start := (List.take_append_drop start text).symm
    _ = text.take start ++
        ((text.drop start).take (stop - start) ++ (text.drop start).drop (stop - start)) :=
      congrArg (text.take start ++ ·) (List.take_append_drop _ _).symm
    _ = text.take start ++ (text.drop start).take (stop - start) ++ text.drop stop := by
      rw [List.drop_drop, Nat.add_comm start, hstop, List.append_assoc]

theorem eq_of_cut? (hkind : kind.Slices) (h : kind.cut? text = some cut) :
    text = cut.left ++ cut.marker ++ cut.right := by
  cases kind with
  | separator marker tight => exact (eq_of_cut?_separator h).2
  | patternSeparator name p => exact eq_of_cut?_pattern hkind h
  | _ => exact absurd h nofun

end TokenKind

namespace Span

variable {sep : TokenType} {spans : List Span} {text : List Char}

theorem flatMap_text_ofText (text : List Char) : (ofText text).flatMap Span.text = text := by
  cases text with
  | nil => rfl
  | cons c cs => exact List.append_nil _

theorem flatMap_text_splitText (hsep : sep.kind.Slices) (fuel : Nat) (text : List Char) :
    (splitText sep fuel text).flatMap Span.text = text := by
  induction fuel generalizing text with
  | zero => exact flatMap_text_ofText text
  | succ fuel ih =>
    cases text with
    | nil => rfl
    | cons c cs =>
      rw [splitText]
      split
      · exact List.append_nil _
      · next cut hcut =>
        rw [List.flatMap_append, List.flatMap_cons, ih, ih, ← List.append_assoc]
        exact (TokenKind.eq_of_cut? hsep hcut).symm

theorem flatMap_text_splitAll (hsep : sep.kind.Slices) (spans : List Span) :
    (splitAll sep spans).flatMap Span.text = spans.flatMap Span.text := by
  rw [splitAll, List.flatMap_assoc]
  congr 1
  funext s
  split
  · exact List.append_nil _
  · exact flatMap_text_splitText hsep _ _

theorem text_demote (left : List Char) (spans : List Span) :
    (demote left spans).map Span.text = spans.map Span.text := by
  fun_induction demote left spans with
  | case1 | case2 => rfl
  | case3 left s t rest right ih =>
    rw [List.map_cons, List.map_cons, ih]
    congr 1
    split <;> rfl

theorem flatMap_text_merge (spans : List Span) :
    (merge spans).flatMap Span.text = spans.flatMap Span.text := by
  induction spans with
  | nil => rfl
  | cons s rest ih =>
    rw [merge, List.flatMap_cons, ← ih]
    split
    · next hnil => rw [hnil, List.flatMap_singleton]; exact (List.append_nil _).symm
    · next t ts hcons =>
      rw [hcons]
      split
      · rfl
      · rw [List.flatMap_cons, List.flatMap_cons, ← List.append_assoc]
        rfl

theorem text_ne_nil_of_mem_demote {left : List Char} {s : Span} (h : ∀ s ∈ spans, s.text ≠ [])
    (hs : s ∈ demote left spans) : s.text ≠ [] := by
  have hmem := List.mem_map_of_mem (f := Span.text) hs
  rw [text_demote] at hmem
  obtain ⟨t, ht, heq⟩ := List.mem_map.mp hmem
  rw [← heq]
  exact h t ht

theorem text_ne_nil_of_mem_merge {s : Span} (h : ∀ s ∈ spans, s.text ≠ []) (hs : s ∈ merge spans) :
    s.text ≠ [] := by
  induction spans generalizing s with
  | nil => exact absurd hs List.not_mem_nil
  | cons u rest ih =>
    have hrest : ∀ t ∈ merge rest, t.text ≠ [] :=
      fun t => ih fun s hs => h s (List.mem_cons_of_mem _ hs)
    rw [merge] at hs
    split at hs
    · obtain rfl := List.mem_singleton.mp hs
      exact h s List.mem_cons_self
    · next t ts hcons =>
      rw [hcons] at hrest
      split at hs
      · rcases List.mem_cons.mp hs with rfl | hs
        · exact h s List.mem_cons_self
        · exact hrest s hs
      · rcases List.mem_cons.mp hs with rfl | hs
        · exact List.append_ne_nil_of_left_ne_nil (h u List.mem_cons_self) _
        · exact hrest s (List.mem_cons_of_mem _ hs)

end Span

namespace Splitter

variable {sp : Splitter} {text : List Char}

theorem flatMap_text_cutUp (hsep : ∀ sep ∈ sp.separators, sep.kind.Slices) (text : List Char) :
    (sp.cutUp text).flatMap Span.text = text :=
  cutUp_induct (Span.flatMap_text_ofText text) fun sep hmem spans h =>
    (Span.flatMap_text_splitAll (hsep sep hmem) spans).trans h

theorem text_ne_nil_of_mem_split {s : Span} (h : text ≠ []) (hs : s ∈ sp.split text) :
    s.text ≠ [] := by
  have hcutUp := (sp.filled_cutUp h).text_ne_nil
  rw [split_eq] at hs
  refine Span.text_ne_nil_of_mem_merge ?_ hs
  split
  · exact fun s => Span.text_ne_nil_of_mem_demote hcutUp
  · exact hcutUp

/-- A text consists of the spans that it is split into. -/
theorem flatMap_text_split (hsep : ∀ sep ∈ sp.separators, sep.kind.Slices) (text : List Char) :
    (sp.split text).flatMap Span.text = text := by
  rw [split_eq, Span.flatMap_text_merge]
  split
  · rw [List.flatMap_def, Span.text_demote, ← List.flatMap_def]
    exact flatMap_text_cutUp hsep text
  · exact flatMap_text_cutUp hsep text

end Splitter

end GrammarGraph
