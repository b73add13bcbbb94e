import GrammarGraph.Proofs.Markers
import GrammarGraph.Proofs.Quotes
import Mathlib.Data.List.Chain

/-!
# What splitting guarantees

Separators are applied one after the other, each to the texts that are left by then.  A text that a
separator is done with does not contain its marker, nor does any part of it, whatever is cut out of
the text later (`Splitter.not_infix_of_mem_foldl`).  Two texts are never neighbours, for there is a
separator wherever a text was cut, and where a separator is text again it is merged with its
neighbours (`Splitter.spans_split`).
-/

namespace GrammarGraph

/-- A marker that is not empty, or a pattern whose match or only group is what separates. -/
def TokenKind.Separates : TokenKind → Prop
  | separator marker _ => marker ≠ ""
  | patternSeparator _ pattern => pattern.groups ≤ 1
  | _ => False

theorem TokenKind.Separates.slices {kind : TokenKind} (h : kind.Separates) : kind.Slices := by
  cases kind with
  | patternSeparator name p => exact h
  | _ => trivial

/-- Each side of a cut is shorter than the text. -/
theorem TokenKind.length_lt_of_cut? {kind : TokenKind} {text : List Char} {cut : Cut}
    (hkind : kind.Slices) (h : kind.cut? text = some cut) :
    cut.left.length < text.length ∧ cut.right.length < text.length := by
  have hmarker := List.length_pos_iff.mpr (marker_ne_nil h)
  have htext := congrArg List.length (eq_of_cut? hkind h)
  rw [List.length_append, List.length_append] at htext
  omega

namespace Span

variable {sep : TokenType} {spans : List Span} {s t : Span} {text left : List Char} {fuel : Nat}

/-- One of two neighbours is a separator. -/
def Apart (s t : Span) : Prop := s.isSeparator = true ∨ t.isSeparator = true

/-! ## Cutting at one separator -/

/-- There is a separator wherever a text was cut. -/
theorem apart_splitText (sep : TokenType) (fuel : Nat) (text : List Char) :
    (splitText sep fuel text).IsChain Apart := by
  induction fuel generalizing text with
  | zero => cases text <;> constructor
  | succ fuel ih =>
    cases text with
    | nil => constructor
    | cons c cs =>
      rw [splitText]
      split
      · constructor
      · refine (ih _).append ((ih _).cons fun _ _ => .inl rfl) ?_
        intro s _ t ht
        obtain rfl := Option.some.inj ht
        exact .inr rfl

/-- A text that is left does not contain the separator any more. -/
theorem cut?_of_mem_splitText (hsep : sep.kind.Slices) (hfuel : text.length ≤ fuel)
    (h : s ∈ splitText sep fuel text) (hs : s.isSeparator = false) :
    sep.kind.cut? s.text = none := by
  induction fuel generalizing text with
  | zero =>
    rw [List.length_eq_zero_iff.mp (Nat.le_zero.mp hfuel)] at h
    exact absurd h List.not_mem_nil
  | succ fuel ih =>
    cases text with
    | nil => exact absurd h List.not_mem_nil
    | cons c cs =>
      rw [splitText] at h
      split at h
      · next hcut =>
        obtain rfl := List.mem_singleton.mp h
        exact hcut
      · next cut hcut =>
        obtain ⟨hleft, hright⟩ := TokenKind.length_lt_of_cut? hsep hcut
        rcases List.mem_append.mp h with h | h
        · exact ih (Nat.le_of_lt_succ (Nat.lt_of_lt_of_le hleft hfuel)) h
        · rcases List.mem_cons.mp h with rfl | h
          · exact absurd hs.symm Bool.false_ne_true
          · exact ih (Nat.le_of_lt_succ (Nat.lt_of_lt_of_le hright hfuel)) h

theorem infix_of_mem_splitText (hsep : sep.kind.Slices) (h : s ∈ splitText sep fuel text) :
    s.text <:+: text := by
  have hinfix := List.infix_of_mem_flatten (List.mem_map_of_mem (f := Span.text) h)
  rwa [← List.flatMap_def, flatMap_text_splitText hsep] at hinfix

/-! ## Cutting all texts -/

/-- A separator stays, and a text that is left is part of one that was there. -/
theorem of_mem_splitAll (hsep : sep.kind.Slices) (h : s ∈ splitAll sep spans) :
    (s ∈ spans ∧ s.isSeparator = true) ∨ (∃ t ∈ spans, t.isSeparator = false ∧ s.text <:+: t.text ∧
      s ∈ splitText sep t.text.length t.text) := by
  obtain ⟨t, ht, h⟩ := List.mem_flatMap.mp h
  split at h
  · next hseparator =>
    obtain rfl := List.mem_singleton.mp h
    exact .inl ⟨ht, hseparator⟩
  · next hplain =>
      exact .inr ⟨t, ht, Bool.eq_false_iff.mpr hplain, infix_of_mem_splitText hsep h, h⟩

theorem apart_splitAll (sep : TokenType) (h : spans.IsChain Apart) :
    (splitAll sep spans).IsChain Apart := by
  induction spans with
  | nil => exact .nil
  | cons s rest ih =>
    rw [splitAll, List.flatMap_cons]
    refine List.IsChain.append ?_ (ih h.tail) ?_
    · split
      · exact .singleton s
      · exact apart_splitText sep _ _
    · intro u hu v hv
      split at hu
      · next hseparator =>
        obtain rfl := Option.some.inj hu
        exact .inl hseparator
      · next hplain =>
        -- behind a text there is a separator, and it stays where it is
        cases rest with
        | nil => exact absurd hv (Option.not_mem_none v)
        | cons t ts =>
          have ht := (List.isChain_cons_cons.mp h).1.resolve_left hplain
          rw [List.flatMap_cons, if_pos ht] at hv
          obtain rfl := Option.some.inj hv
          exact .inr ht

/-! ## Demoting and merging -/

theorem mem_of_mem_demote (h : s ∈ demote left spans) (hs : s.isSeparator = true) : s ∈ spans := by
  obtain ⟨front, after, hdemote⟩ := List.append_of_mem h
  obtain ⟨before, behind, rfl, -⟩ := exists_of_demote hs hdemote
  exact List.mem_append_right _ List.mem_cons_self

theorem mem_of_mem_merge (h : s ∈ merge spans) (hs : s.isSeparator = true) : s ∈ spans := by
  obtain ⟨front, after, hmerge⟩ := List.append_of_mem h
  obtain ⟨before, behind, rfl, -⟩ := exists_of_merge hs hmerge
  exact List.mem_append_right _ List.mem_cons_self

theorem apart_merge (spans : List Span) : (merge spans).IsChain Apart := by
  induction spans with
  | nil => exact .nil
  | cons s rest ih =>
    rw [merge]
    split
    · exact .singleton s
    · next t ts hmerge =>
      rw [hmerge] at ih
      split
      · next hapart => exact ih.cons_cons (Bool.or_eq_true_iff.mp hapart)
      · next hplain =>
        rw [Bool.not_eq_true, Bool.or_eq_false_iff] at hplain
        refine ih.tail.cons fun u hu => .inr ?_
        exact ((List.isChain_cons.mp ih).1 u hu).resolve_left (Bool.eq_false_iff.mp hplain.2)

/-- Where no two texts are neighbours there is nothing to merge. -/
theorem merge_of_apart (h : spans.IsChain Apart) : merge spans = spans := by
  induction spans with
  | nil => rfl
  | cons s rest ih =>
    rw [merge, ih h.tail]
    cases rest with
    | nil => rfl
    | cons t ts => exact if_pos (Bool.or_eq_true_iff.mpr (List.isChain_cons_cons.mp h).1)

end Span

namespace Splitter

variable {sp : Splitter} {text : List Char} {s : Span} {sep : TokenType}

theorem cutUp_nil (sp : Splitter) : sp.cutUp [] = [] := by
  refine cutUp_induct (P := fun spans => spans = []) rfl ?_
  rintro sep - _ rfl
  rfl

theorem split_nil (sp : Splitter) : sp.split [] = [] := by
  rw [split_eq, cutUp_nil]
  split <;> rfl

theorem apart_cutUp (sp : Splitter) (text : List Char) : (sp.cutUp text).IsChain Span.Apart := by
  refine cutUp_induct ?_ fun sep _ spans h => Span.apart_splitAll sep h
  cases text <;> constructor

/-- Of two neighbours one is a separator. -/
theorem apart_split (sp : Splitter) (text : List Char) : (sp.split text).IsChain Span.Apart := by
  rw [split_eq]
  exact Span.apart_merge _

/-- A separator among the spans is one of those that were applied, and what a
marker cut out is the marker. -/
theorem separator_of_mem_cutUp (h : s ∈ sp.cutUp text) (hs : s.separator = some sep) :
    sep ∈ sp.separators ∧ ∀ marker tight, sep.kind = .separator marker tight →
      s.text = marker.toList := by
  refine cutUp_induct (P := fun spans => ∀ s ∈ spans, ∀ sep, s.separator = some sep →
    sep ∈ sp.separators ∧ ∀ marker tight, sep.kind = .separator marker tight →
    s.text = marker.toList) ?_ ?_ s h sep hs
  · intro s hs sep hsep
    exact absurd (hsep.symm.trans (Span.separator_of_mem_ofText hs)) nofun
  · intro sep hsep spans hspans s hs sep' hsep'
    obtain ⟨t, ht, hmem⟩ := List.mem_flatMap.mp hs
    split at hmem
    · obtain rfl := List.mem_singleton.mp hmem
      exact hspans s ht sep' hsep'
    · rcases Span.plain_or_cut_of_mem_splitText hmem with hnone | ⟨part, cut, hcut, rfl⟩
      · exact absurd (hsep'.symm.trans hnone) nofun
      · obtain rfl := Option.some.inj hsep'
        refine ⟨hsep, fun marker tight hkind => ?_⟩
        rw [hkind] at hcut
        exact (TokenKind.eq_of_cut?_separator hcut).1

theorem separator_of_mem_split (h : s ∈ sp.split text) (hs : s.separator = some sep) :
    sep ∈ sp.separators ∧ ∀ marker tight, sep.kind = .separator marker tight →
      s.text = marker.toList := by
  have hseparator : s.isSeparator = true := by rw [Span.isSeparator, hs, Option.isSome_some]
  rw [split_eq] at h
  have hmem : s ∈ sp.cutUp text := by
    have hmerged := Span.mem_of_mem_merge h hseparator
    split at hmerged
    · exact Span.mem_of_mem_demote hmerged hseparator
    · exact hmerged
  exact separator_of_mem_cutUp hmem hs

/-- Once a separator has been applied, no text contains its marker. -/
theorem not_infix_of_mem_foldl {separators : List TokenType} {spans : List Span}
    (hseparators : ∀ sep ∈ separators, sep.kind.Separates)
    (h : s ∈ separators.foldl (fun spans sep => Span.splitAll sep spans) spans)
    (hs : s.isSeparator = false) : (∃ t ∈ spans, t.isSeparator = false ∧ s.text <:+: t.text) ∧
    ∀ sep ∈ separators, ∀ marker tight, sep.kind = .separator marker tight →
    ¬marker.toList <:+: s.text := by
  induction separators generalizing spans with
  | nil => exact ⟨⟨s, h, hs, List.infix_rfl⟩, fun sep hsep => absurd hsep List.not_mem_nil⟩
  | cons sep separators ih =>
    obtain ⟨hsep, hrest⟩ := List.forall_mem_cons.mp hseparators
    obtain ⟨⟨t, ht, htplain, hpart⟩, hothers⟩ := ih hrest h
    rcases Span.of_mem_splitAll hsep.slices ht with ⟨-, htsep⟩ | ⟨u, hu, huplain, hinfix, hpiece⟩
    · exact absurd (htplain.symm.trans htsep) nofun
    · refine ⟨⟨u, hu, huplain, hpart.trans hinfix⟩, List.forall_mem_cons.mpr ⟨?_, hothers⟩⟩
      intro marker tight hkind hmarker
      have hne : marker.toList ≠ [] := by
        rw [hkind] at hsep
        exact fun hnil => hsep (String.toList_eq_nil_iff.mp hnil)
      have hcut := Span.cut?_of_mem_splitText hsep.slices (Nat.le_refl _) hpiece htplain
      rw [hkind, TokenKind.cut?_separator_eq_none hne] at hcut
      exact hcut (hmarker.trans hpart)

/-- What splitting guarantees, whatever the order of the separators: the spans are not empty and
make up the text, no two texts are neighbours, each separator is one that was given, and the marker
itself if it is one.  If literals do not count, no text contains a marker. -/
theorem spans_split (sp : Splitter) (text : List Char)
    (h : ∀ sep ∈ sp.separators, sep.kind.Separates) :
    (∀ s ∈ sp.split text, s.text ≠ []) ∧
    (sp.split text).flatMap Span.text = text ∧
    (sp.split text).IsChain Span.Apart ∧
    (∀ s ∈ sp.split text, ∀ sep, s.separator = some sep → sep ∈ sp.separators ∧
      ∀ marker tight, sep.kind = .separator marker tight → s.text = marker.toList) ∧
    (sp.literalAware = false →
      ∀ s ∈ sp.split text, s.isSeparator = false → ∀ sep ∈ sp.separators,
        ∀ marker tight, sep.kind = .separator marker tight → ¬marker.toList <:+: s.text) := by
  have hslices : ∀ sep ∈ sp.separators, sep.kind.Slices := fun sep hsep => (h sep hsep).slices
  refine ⟨?_, flatMap_text_split hslices text, apart_split sp text,
    fun s hs sep hsep => separator_of_mem_split hs hsep, ?_⟩
  · intro s hs
    refine text_ne_nil_of_mem_split ?_ hs
    rintro rfl
    rw [split_nil] at hs
    exact absurd hs List.not_mem_nil
  · intro haware s hs hplain sep hsep
    rw [split_eq, haware, if_neg Bool.false_ne_true,
      Span.merge_of_apart (apart_cutUp sp text)] at hs
    exact (not_infix_of_mem_foldl h hs hplain).2 sep hsep

end Splitter

namespace Sample

def colons : TokenType := ⟨1, .separator "::" false⟩
def dot : TokenType := ⟨2, .separator "." true⟩
def shaft : TokenType :=
  ⟨3, .patternSeparator "(-+)>" ⟨.ofList [.group 1 (.plus true (.char '-')), .char '>'], 1⟩⟩

/-- A tight marker, a pattern with a group and a longer marker, applied in this order. -/
def mixed : Splitter := { separators := [dot, shaft, colons] }

theorem spans_split_mixed : (∀ sep ∈ mixed.separators, sep.kind.Separates) ∧
    mixed.split "a::b.c-->d".toList = [.plain ['a'], ⟨[':', ':'], some colons⟩, .plain ['b'],
      ⟨['.'], some dot⟩, .plain ['c'], ⟨['-', '-'], some shaft⟩, .plain ['>', 'd']] ∧
    (mixed.split "a::b.c-->d".toList).IsChain Span.Apart ∧
    ∀ s ∈ mixed.split "a::b.c-->d".toList, s.isSeparator = false → ¬"::".toList <:+: s.text := by
  have hseparates : ∀ sep ∈ mixed.separators, sep.kind.Separates := by
    simp [mixed, dot, shaft, colons, TokenKind.Separates]
  obtain ⟨-, -, hapart, -, hnot⟩ := Splitter.spans_split mixed "a::b.c-->d".toList hseparates
  refine ⟨hseparates, rfl, hapart, fun s hs hplain => ?_⟩
  exact hnot rfl s hs hplain colons (by simp [mixed]) "::" false rfl

end Sample

end GrammarGraph
