import GrammarGraph.Proofs.Placing
import GrammarGraph.Proofs.Spans

/-!
# Longer markers come first

A lexer applies its separators by the length of their markers, those of one length in the order in
which they were added (`Lexer.find?_separators_ofTypes`).  An occurrence of a marker that no
occurrence of another one overlaps stays whole while that one is cut out, for every cut is on one
side of it (`Span.lies_splitText`).  So it is cut out itself unless it overlaps an occurrence of a
marker that is at least as long (`Lexer.alone_split`).
-/

namespace GrammarGraph

/-! ## The order of separators -/

/-- Separators are applied in an order of non-increasing length. -/
def LongestFirst (types : List TokenType) : Prop := types.Pairwise fun t u =>
  u.kind.precedence ≤ t.kind.precedence

section Order

variable {t : TokenType} {types : List TokenType} {p : TokenType → Bool}

theorem LongestFirst.insertByLength (h : LongestFirst types) (t : TokenType) :
    LongestFirst (insertByLength t types) := by
  induction types with
  | nil => exact List.pairwise_singleton _ t
  | cons u types ih =>
    obtain ⟨hu, hrest⟩ := List.pairwise_cons.mp h
    rw [GrammarGraph.insertByLength]
    split
    · next hlt =>
      refine List.pairwise_cons.mpr ⟨?_, h⟩
      intro v hv
      rcases List.mem_cons.mp hv with rfl | hv
      · exact Nat.le_of_lt hlt
      · exact Nat.le_trans (hu v hv) (Nat.le_of_lt hlt)
    · next hle =>
      refine List.pairwise_cons.mpr ⟨?_, ih hrest⟩
      intro v hv
      rcases Lexer.mem_insertByLength hv with rfl | hv
      · exact Nat.not_lt.mp hle
      · exact hu v hv

/-- A type is found behind those of the same length that were there before it. -/
theorem find?_insertByLength (h : LongestFirst types)
    (hp : ∀ t u : TokenType, p t = true → p u = true → t.kind.precedence = u.kind.precedence) :
    (insertByLength t types).find? p = (types ++ [t]).find? p := by
  induction types with
  | nil => rfl
  | cons u types ih =>
    obtain ⟨hu, hrest⟩ := List.pairwise_cons.mp h
    rw [insertByLength]
    split
    · next hlt =>
      cases ht : p t with
      | false =>
        rw [List.find?_append, List.find?_cons_of_neg (Bool.eq_false_iff.mp ht),
            List.find?_singleton, ht]; simp
      | true =>
        -- behind the type that is inserted all are shorter
        have hnone : (u :: types).find? p = none := by
          rw [List.find?_eq_none]
          intro v hv hpv
          have hle : v.kind.precedence ≤ u.kind.precedence := by
            rcases List.mem_cons.mp hv with rfl | hv
            · exact Nat.le_refl _
            · exact hu v hv
          exact absurd (hp v t hpv ht) (Nat.ne_of_lt (Nat.lt_of_le_of_lt hle hlt))
        rw [List.find?_append, hnone, List.find?_cons_of_pos ht, Option.none_or,
          List.find?_singleton, if_pos ht]
    · rw [List.cons_append, List.find?_cons, List.find?_cons, ih hrest]

end Order

/-- Whether this is the marker that separates. -/
def TokenKind.marks (marker : String) : TokenKind → Bool
  | separator other _ => other == marker
  | _ => false

theorem TokenKind.eq_of_marks {marker : String} {kind : TokenKind} (h : kind.marks marker = true) :
    ∃ tight, kind = .separator marker tight := by
  cases kind with
  | separator other tight => exact ⟨tight, by rw [eq_of_beq h]⟩
  | _ => exact absurd h nofun

namespace Lexer

variable {types : List TokenType} {marker : String}

theorem separators_add (lx : Lexer) (t : TokenType) : (lx.add t).splitter.separators =
    if t.kind.isSeparator then insertByLength t lx.splitter.separators
    else lx.splitter.separators := by
  unfold add
  cases t.kind <;> rfl

theorem literalAware_add (lx : Lexer) (t : TokenType) :
    (lx.add t).splitter.literalAware = (lx.splitter.literalAware || t.kind.isLiteral) := by
  unfold add
  cases t.kind <;> simp [TokenKind.isLiteral]

theorem longestFirst_ofTypes (types : List TokenType) :
    LongestFirst (ofTypes types).splitter.separators := by
  induction types using List.reverseRecOn with
  | nil => exact .nil
  | append_singleton types t ih =>
    rw [ofTypes_concat, separators_add]
    split
    · exact ih.insertByLength t
    · exact ih

/-- Of the types with a marker the first one is applied first. -/
theorem find?_separators_ofTypes (types : List TokenType) (marker : String) :
    (ofTypes types).splitter.separators.find? (·.kind.marks marker) =
      types.find? (·.kind.marks marker) := by
  have hprecedence : ∀ t u : TokenType, t.kind.marks marker = true → u.kind.marks marker = true →
      t.kind.precedence = u.kind.precedence := by
    intro t u ht hu
    obtain ⟨tight, ht⟩ := TokenKind.eq_of_marks ht
    obtain ⟨tight', hu⟩ := TokenKind.eq_of_marks hu
    rw [ht, hu]
    rfl
  induction types using List.reverseRecOn with
  | nil => rfl
  | append_singleton types t ih =>
    rw [ofTypes_concat, separators_add, List.find?_append, ← ih]
    split
    · rw [find?_insertByLength (longestFirst_ofTypes types) hprecedence, List.find?_append]
    · next hnot =>
      have hmarks : ¬t.kind.marks marker = true := by
        intro hmarks
        obtain ⟨tight, hkind⟩ := TokenKind.eq_of_marks hmarks
        exact hnot (by rw [hkind]; rfl)
      rw [List.find?_singleton, if_neg hmarks, Option.or_none]

theorem literalAware_ofTypes (h : ∀ t ∈ types, t.kind.isLiteral = false) :
    (ofTypes types).splitter.literalAware = false := by
  induction types using List.reverseRecOn with
  | nil => rfl
  | append_singleton types t ih =>
    rw [ofTypes_concat, literalAware_add, ih fun u hu => h u (List.mem_append_left _ hu),
      h t (List.mem_append_right _ List.mem_cons_self), Bool.or_false]

end Lexer

/-! ## Occurrences that are left whole -/

/-- Each occurrence of the other marker is this one, or lies before it or behind it. -/
def Undisturbed (other left marker right : List Char) : Prop :=
  ∀ before behind, left ++ marker ++ right = before ++ other ++ behind →
    (before = left ∧ other = marker) ∨ before.length + other.length ≤ left.length ∨
      left.length + marker.length ≤ before.length

section Undisturbed

variable {other left marker right before behind : List Char}

/-- The same holds within a part of the text. -/
theorem Undisturbed.inner (a b : List Char)
    (h : Undisturbed other (a ++ left) marker (right ++ b)) :
    Undisturbed other left marker right := by
  intro before behind htext
  have hwhole : a ++ left ++ marker ++ (right ++ b) = a ++ before ++ other ++ (behind ++ b) := by
    have hwrapped := congrArg (fun text => a ++ (text ++ b)) htext
    simpa only [List.append_assoc] using hwrapped
  have hcases := h _ _ hwhole
  rw [List.append_cancel_left_eq] at hcases
  refine hcases.imp_right (Or.imp (fun hbefore => ?_) fun hbehind => ?_) <;>
    simp only [List.length_append] at * <;> omega

theorem undisturbed_iff : Undisturbed other left marker right ↔
    ∀ n < (left ++ marker ++ right).length + 1, other <+: (left ++ marker ++ right).drop n →
      (n = left.length ∧ other = marker) ∨ n + other.length ≤ left.length ∨
      left.length + marker.length ≤ n := by
  constructor
  · rintro h n hn ⟨behind, hbehind⟩
    have hlength : ((left ++ marker ++ right).take n).length = n :=
      List.length_take_of_le (Nat.le_of_lt_succ hn)
    have hcases := h ((left ++ marker ++ right).take n) behind (by
      rw [List.append_assoc ((left ++ marker ++ right).take n), hbehind, List.take_append_drop])
    rw [hlength] at hcases
    exact hcases.imp_left fun hsame => ⟨by rw [← hsame.1, hlength], hsame.2⟩
  · intro h before behind htext
    have hcases := h before.length (by
        rw [htext, List.append_assoc before, List.length_append]; exact Nat.lt_succ_of_le
          (Nat.le_add_right _ _)) ⟨behind, by rw [htext, List.append_assoc before, List.drop_left]⟩
    refine hcases.imp_left fun hsame => ⟨?_, hsame.2⟩
    rw [List.append_assoc, List.append_assoc before] at htext
    exact (List.append_inj_left htext hsame.1.symm).symm

instance : Decidable (Undisturbed other left marker right) := decidable_of_iff' _ undisturbed_iff

/-- What lies before a part of a text is cut off from it. -/
theorem exists_between (h : left ++ marker ++ right = before ++ other ++ behind)
    (hle : before.length + other.length ≤ left.length) :
    ∃ mid, left = before ++ other ++ mid ∧ behind = mid ++ marker ++ right := by
  rw [List.append_assoc left] at h
  have hfront : before ++ other <+: left :=
    List.prefix_of_prefix_length_le ⟨behind, h.symm⟩ (List.prefix_append left _)
      (by rwa [List.length_append])
  obtain ⟨mid, rfl⟩ := hfront
  rw [List.append_assoc (before ++ other), List.append_cancel_left_eq] at h
  exact ⟨mid, rfl, by rw [List.append_assoc, h]⟩

end Undisturbed

namespace Span

variable {sep : TokenType} {left marker right : List Char} {spans : List Span}

/-- A part of a text lies in one of the spans, of which something holds. -/
def Lies (P : Span → Prop) (left marker right : List Char) (spans : List Span) : Prop :=
  ∃ before front s back after, spans = before ++ s :: after ∧ P s ∧
    s.text = front ++ marker ++ back ∧ before.flatMap text ++ front = left ∧
    back ++ after.flatMap text = right

theorem Lies.within {P : Span → Prop} (h : Lies P left marker right spans) (a b : List Span) :
    Lies P (a.flatMap text ++ left) marker (right ++ b.flatMap text) (a ++ (spans ++ b)) := by
  obtain ⟨before, front, s, back, after, rfl, hs, htext, rfl, rfl⟩ := h
  refine ⟨a ++ before, front, s, back, after ++ b, ?_, hs, htext, ?_, ?_⟩
  · simp only [List.append_assoc, List.cons_append]
  · rw [List.flatMap_append, List.append_assoc]
  · rw [List.flatMap_append, List.append_assoc]

theorem lies_plain {P : Span → Prop} (h : P (plain (left ++ marker ++ right))) :
    Lies P left marker right [plain (left ++ marker ++ right)] :=
  ⟨[], left, _, right, [], rfl, h, rfl, rfl, List.append_nil right⟩

theorem lies_ofText {P : Span → Prop} (hne : marker ≠ [])
    (h : P (plain (left ++ marker ++ right))) :
    Lies P left marker right (ofText (left ++ marker ++ right)) := by
  obtain ⟨c, cs, htext⟩ := List.exists_cons_of_ne_nil
    (List.append_ne_nil_of_left_ne_nil (List.append_ne_nil_of_right_ne_nil left hne) right)
  rw [htext, ofText, ← htext]
  exact lies_plain h

/-- While a separator is cut out of a text, a part that none of its occurrences disturbs stays in
one plain text, or is itself cut out. -/
theorem lies_splitText {other : String} {tight : Bool} (hkind : sep.kind = .separator other tight)
    (hne : marker ≠ []) (h : Undisturbed other.toList left marker right) (fuel : Nat) :
    Lies (fun s => s.isSeparator = false ∨ other.toList = marker ∧
      s = ⟨marker, some sep⟩) left marker right (splitText sep fuel (left ++ marker ++ right)) := by
  have hslices : sep.kind.Slices := by rw [hkind]; trivial
  induction fuel generalizing left right with
  | zero =>
    rw [splitText]
    exact lies_ofText hne (.inl rfl)
  | succ fuel ih =>
    obtain ⟨c, cs, htext⟩ := List.exists_cons_of_ne_nil
      (List.append_ne_nil_of_left_ne_nil (List.append_ne_nil_of_right_ne_nil left hne) right)
    rw [htext, splitText, ← htext]
    split
    · exact lies_plain (.inl rfl)
    · next cut hcut =>
      rw [hkind] at hcut
      obtain ⟨hmarker, hparts⟩ := TokenKind.eq_of_cut?_separator hcut
      rw [hmarker] at hparts ⊢
      rcases h _ _ hparts with ⟨hleft, hother⟩ | hbefore | hbehind
      · -- the part itself is cut out
        rw [hleft, hother, List.append_cancel_left_eq] at hparts
        refine ⟨splitText sep fuel cut.left, [], ⟨other.toList, some sep⟩, [],
          splitText sep fuel cut.right, rfl, .inr ⟨hother, by rw [hother]⟩, ?_, ?_, ?_⟩
        · rw [hother, List.nil_append, List.append_nil]
        · rw [flatMap_text_splitText hslices, hleft, List.append_nil]
        · rw [flatMap_text_splitText hslices, hparts, List.nil_append]
      · -- what is cut out lies before the part
        obtain ⟨mid, rfl, hright⟩ := exists_between hparts hbefore
        have hinner : Undisturbed other.toList mid marker right :=
          .inner (cut.left ++ other.toList) [] (by rwa [List.append_nil])
        have hlies :=
          (ih hinner).within (splitText sep fuel cut.left ++ [⟨other.toList, some sep⟩]) []
        rw [List.flatMap_append, flatMap_text_splitText hslices, List.flatMap_singleton,
          ← hright] at hlies
        simpa only [List.append_assoc, List.cons_append, List.nil_append, List.flatMap_nil,
          List.append_nil] using hlies
      · -- what is cut out lies behind the part
        obtain ⟨mid, hleft, rfl⟩ := exists_between hparts.symm hbehind
        have hinner : Undisturbed other.toList left marker mid :=
          .inner [] (other.toList ++ cut.right) (by
          rwa [List.nil_append, ← List.append_assoc])
        have hlies :=
          (ih hinner).within [] (⟨other.toList, some sep⟩ :: splitText sep fuel cut.right)
        rw [List.flatMap_cons, flatMap_text_splitText hslices, ← hleft,
          ← List.append_assoc mid] at hlies
        exact hlies

/-- A part in a plain text that the occurrences of a separator leave undisturbed
stays in one, or is cut out. -/
theorem Lies.splitAll {other : String} {tight : Bool}
    (h : Lies (·.isSeparator = false) left marker right spans)
    (hkind : sep.kind = .separator other tight) (hne : marker ≠ [])
    (hundisturbed : Undisturbed other.toList left marker right) :
    Lies (fun s => s.isSeparator = false ∨ other.toList = marker ∧
      s = ⟨marker, some sep⟩) left marker right (splitAll sep spans) := by
  have hslices : sep.kind.Slices := by rw [hkind]; trivial
  obtain ⟨before, front, s, back, after, rfl, hs, htext, rfl, rfl⟩ := h
  have hlies := (lies_splitText hkind hne hundisturbed.inner s.text.length).within
    (Span.splitAll sep before) (Span.splitAll sep after)
  rw [flatMap_text_splitAll hslices, flatMap_text_splitAll hslices, ← htext] at hlies
  have hplain : ¬s.isSeparator = true := Bool.eq_false_iff.mp hs
  rwa [Span.splitAll, List.flatMap_append, List.flatMap_cons, if_neg hplain]

/-- A separator stays where it is. -/
theorem Lies.splitAll_of_isSeparator {P : Span → Prop} (h : Lies P left marker right spans)
    (hP : ∀ s, P s → s.isSeparator = true) (hslices : sep.kind.Slices) :
    Lies P left marker right (Span.splitAll sep spans) := by
  obtain ⟨before, front, s, back, after, rfl, hs, htext, rfl, rfl⟩ := h
  refine ⟨Span.splitAll sep before, front, s, back, Span.splitAll sep after, ?_, hs, htext, ?_, ?_⟩
  · rw [Span.splitAll, List.flatMap_append, List.flatMap_cons, if_pos (hP s hs)]
    rfl
  · rw [flatMap_text_splitAll hslices]
  · rw [flatMap_text_splitAll hslices]

/-! ## All separators -/

theorem Lies.foldl {separators : List TokenType}
    (h : Lies (·.isSeparator = false) left marker right spans) (hne : marker ≠ [])
    (hseparators : ∀ sep ∈ separators, ∃ other tight, sep.kind = .separator other tight ∧
      other.toList ≠ marker ∧ Undisturbed other.toList left marker right) :
    Lies (·.isSeparator = false) left marker right
      (separators.foldl (fun spans sep => Span.splitAll sep spans) spans) := by
  induction separators generalizing spans with
  | nil => exact h
  | cons sep separators ih =>
    obtain ⟨⟨other, tight, hkind, hother, hundisturbed⟩, hrest⟩ :=
      List.forall_mem_cons.mp hseparators
    obtain ⟨before, front, s, back, after, hspans, hs, hlies⟩ := h.splitAll hkind hne hundisturbed
    exact ih ⟨before, front, s, back, after, hspans, hs.resolve_right fun hcut => hother hcut.1,
      hlies⟩ hrest

theorem Lies.foldl_of_isSeparator {P : Span → Prop} {separators : List TokenType}
    (h : Lies P left marker right spans) (hP : ∀ s, P s → s.isSeparator = true)
    (hslices : ∀ sep ∈ separators, sep.kind.Slices) :
    Lies P left marker right
      (separators.foldl (fun spans sep => Span.splitAll sep spans) spans) := by
  induction separators generalizing spans with
  | nil => exact h
  | cons sep separators ih =>
    obtain ⟨hsep, hrest⟩ := List.forall_mem_cons.mp hslices
    exact ih (h.splitAll_of_isSeparator hP hsep) hrest

/-- When its own turn comes, the part is cut out. -/
theorem Lies.cut {own : String} {tight : Bool}
    (h : Lies (·.isSeparator = false) left own.toList right spans)
    (hkind : sep.kind = .separator own tight) (hne : own ≠ "")
    (hundisturbed : Undisturbed own.toList left own.toList right) :
    Lies (· = ⟨own.toList, some sep⟩) left own.toList right (Span.splitAll sep spans) := by
  have hmarker : own.toList ≠ [] := fun hnil => hne (String.toList_eq_nil_iff.mp hnil)
  obtain ⟨before, front, s, back, after, hspans, hs, htext, hsides⟩ :=
    h.splitAll hkind hmarker hundisturbed
  refine ⟨before, front, s, back, after, hspans, ?_, htext, hsides⟩
  rcases hs with hplain | ⟨-, hs⟩
  · have hmem : s ∈ Span.splitAll sep spans := by
      rw [hspans]
      exact List.mem_append_right _ List.mem_cons_self
    have hseparates : sep.kind.Separates := by rw [hkind]; exact hne
    have hnot :=
      (Splitter.not_infix_of_mem_foldl (List.forall_mem_singleton.mpr hseparates) hmem hplain).2
    exact absurd ⟨front, back, htext.symm⟩ (hnot sep List.mem_cons_self own tight hkind)
  · exact hs

end Span

namespace Lexer

variable {types : List TokenType} {marker : String} {t : TokenType}

/-- In front of the first type with a marker there are other markers only, which are at least as
long. -/
theorem exists_separators_ofTypes (hmarkers : ∀ t ∈ types, t.kind.isSeparator = true →
      ∃ marker tight, t.kind = .separator marker tight ∧ marker ≠ "")
    (hfirst : types.find? (·.kind.marks marker) = some t) :
    ∃ longer shorter tight, (ofTypes types).splitter.separators = longer ++ t :: shorter ∧
      t.kind = .separator marker tight ∧ marker ≠ "" ∧
      (∀ u ∈ longer, u ∈ types ∧ ∃ other tight, u.kind = .separator other tight ∧ other ≠ marker ∧
        marker.length ≤ other.length) ∧
      ∀ u ∈ shorter, u.kind.Slices := by
  rw [← find?_separators_ofTypes, List.find?_eq_some_iff_append] at hfirst
  obtain ⟨hmarks, longer, shorter, hseparators, hlonger⟩ := hfirst
  obtain ⟨tight, hkind⟩ := TokenKind.eq_of_marks hmarks
  have hsorted := longestFirst_ofTypes types
  have hmem : ∀ u ∈ (ofTypes types).splitter.separators, u ∈ types ∧
      ∃ other tight, u.kind = .separator other tight ∧ other ≠ "" := by
    intro u hu
    obtain ⟨hu, hkind⟩ := (sorts_ofTypes types).separators u hu
    exact ⟨hu, hmarkers u hu hkind⟩
  rw [hseparators] at hsorted hmem
  refine ⟨longer, shorter, tight, hseparators, hkind, ?_, ?_, ?_⟩
  · obtain ⟨-, own, tight', hown, hne⟩ := hmem t (List.mem_append_right _ List.mem_cons_self)
    rwa [(TokenKind.separator.inj (hkind.symm.trans hown)).1]
  · intro u hu
    obtain ⟨hutypes, other, tight', hother, -⟩ := hmem u (List.mem_append_left _ hu)
    have hle : t.kind.precedence ≤ u.kind.precedence :=
      (List.pairwise_append.mp hsorted).2.2 u hu t List.mem_cons_self
    rw [hkind, hother] at hle
    refine ⟨hutypes, other, tight', hother, ?_, hle⟩
    rintro rfl
    have hnot := hlonger u hu
    rw [hother, TokenKind.marks, BEq.rfl] at hnot
    exact absurd hnot nofun
  · intro u hu
    obtain ⟨-, other, tight', hother, -⟩ :=
      hmem u (List.mem_append_right _ (List.mem_cons_of_mem _ hu))
    rw [hother]
    trivial

/-- In a lexer for markers and without literals, an occurrence of a marker is one separator
span, of the first type with this marker, if it overlaps no other occurrence of a marker
that is as long or longer. -/
theorem alone_split (types : List TokenType) (hliteral : ∀ t ∈ types, t.kind.isLiteral = false)
    (hmarkers : ∀ t ∈ types, t.kind.isSeparator = true →
      ∃ marker tight, t.kind = .separator marker tight ∧ marker ≠ "")
    (marker : String) (t : TokenType) (hfirst : types.find? (·.kind.marks marker) = some t)
    (left right : List Char)
    (hfree : ∀ u ∈ types, ∀ other tight, u.kind = .separator other tight →
      marker.length ≤ other.length → Undisturbed other.toList left marker.toList right) :
    ∃ before after,
      (ofTypes types).splitter.split (left ++ marker.toList ++ right) =
        before ++ ⟨marker.toList, some t⟩ :: after ∧
      before.flatMap Span.text = left ∧ after.flatMap Span.text = right := by
  obtain ⟨longer, shorter, tight, hseparators, hkind, hne, hlonger, hshorter⟩ :=
    exists_separators_ofTypes hmarkers hfirst
  have hmarker : marker.toList ≠ [] := fun hnil => hne (String.toList_eq_nil_iff.mp hnil)
  have hstart : Span.Lies (·.isSeparator = false) left marker.toList right
      (Span.ofText (left ++ marker.toList ++ right)) := Span.lies_ofText hmarker rfl
  have hothers : ∀ u ∈ longer, ∃ other tight, u.kind = .separator other tight ∧
      other.toList ≠ marker.toList ∧ Undisturbed other.toList left marker.toList right := by
    intro u hu
    obtain ⟨hutypes, other, tight', hother, hnot, hle⟩ := hlonger u hu
    exact ⟨other, tight', hother, fun heq => hnot (String.toList_inj.mp heq),
      hfree u hutypes other tight' hother hle⟩
  have hown : Undisturbed marker.toList left marker.toList right :=
    hfree t (List.mem_of_find?_eq_some hfirst) marker tight hkind (Nat.le_refl _)
  obtain ⟨first, front, s, back, last, hspans, rfl, hparts, rfl, rfl⟩ :=
    ((hstart.foldl hmarker hothers).cut hkind hne hown).foldl_of_isSeparator
      (fun s hs => by rw [hs]; rfl) hshorter
  obtain ⟨rfl, rfl⟩ : front = [] ∧ back = [] := by
    have hlength := congrArg List.length hparts
    simp only [List.length_append] at hlength
    exact ⟨List.length_eq_zero_iff.mp (by omega), List.length_eq_zero_iff.mp (by omega)⟩
  refine ⟨Span.merge first, Span.merge last, ?_, ?_, ?_⟩
  · rw [Splitter.split_eq, literalAware_ofTypes hliteral, if_neg Bool.false_ne_true, Splitter.cutUp,
      hseparators, List.foldl_append, List.foldl_cons, hspans, Span.merge_append_separator rfl]
  · rw [Span.flatMap_text_merge, List.append_nil]
  · rw [Span.flatMap_text_merge, List.nil_append]

end Lexer

namespace Sample

def colon : TokenType := ⟨4, .separator ":" false⟩

/-- Another type with the marker of `colon`, added behind it. -/
def tightColon : TokenType := ⟨5, .separator ":" true⟩

/-- The shorter marker is added first, and applied behind the longer one. -/
theorem alone_split_colons :
    (∃ before after, (Lexer.ofTypes [colon, colons, tightColon]).splitter.split "a::b:c".toList =
      before ++ ⟨[':', ':'], some colons⟩ :: after ∧
      before.flatMap Span.text = ['a'] ∧ after.flatMap Span.text = ['b', ':', 'c']) ∧
    ∃ before after, (Lexer.ofTypes [colon, colons, tightColon]).splitter.split "a::b:c".toList =
      before ++ ⟨[':'], some colon⟩ :: after ∧
      before.flatMap Span.text = ['a', ':', ':', 'b'] ∧ after.flatMap Span.text = ['c'] := by
  have hliteral : ∀ t ∈ [colon, colons, tightColon], t.kind.isLiteral = false := by
    simp [colon, colons, tightColon, TokenKind.isLiteral]
  have hmarkers : ∀ t ∈ [colon, colons, tightColon], t.kind.isSeparator = true →
      ∃ marker tight, t.kind = .separator marker tight ∧ marker ≠ "" := by
    simp [colon, colons, tightColon]
  refine ⟨Lexer.alone_split _ hliteral hmarkers "::" colons rfl ['a'] ['b', ':', 'c'] ?_,
    Lexer.alone_split _ hliteral hmarkers ":" colon rfl ['a', ':', ':', 'b'] ['c'] ?_⟩
  · simp only [List.forall_mem_cons]
    refine ⟨?_, ?_, ?_, List.forall_mem_nil _⟩ <;> rintro other tight ⟨⟩ <;> decide +kernel
  · simp only [List.forall_mem_cons]
    refine ⟨?_, ?_, ?_, List.forall_mem_nil _⟩ <;> rintro other tight ⟨⟩ <;> decide +kernel

end Sample

end GrammarGraph
