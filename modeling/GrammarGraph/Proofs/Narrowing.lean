import GrammarGraph.Proofs.Spans
import GrammarGraph.Proofs.Tokens

/-!
# Lexing comes to an end

Three loops run one within the other while a text is read.  Each ends because something gets
shorter.

* A separator is applied in passes over the spans until one changes nothing (`Span.splitWithin`):
  what is left on either side of a cut is shorter than the text that was cut.
* Behind a marker the rest of a span is classified like a text of its own (`Lexer.Calls`): it is
  shorter than that text, since no span is longer.
* Every step of the stream, and so every change of mode, reads at least one character.

A pattern with three groups gives the sides of a cut itself.  If they overlap then a cut that
is taken back between quotes leaves a longer text than there was, and the second loop need
not end (`Sample.Overlap`).
-/

namespace GrammarGraph

/-! ## The sides of a cut -/

namespace TokenKind

variable {kind : TokenKind} {text : List Char} {cut : Cut}

/-- A pattern with three groups gives the text on either side of the separator by its outer
groups. -/
def GivesSides : TokenKind → Prop
  | patternSeparator _ pattern => pattern.groups = 3
  | _ => False

/-- Neither of the outer groups is ever the whole text. -/
def Narrows (kind : TokenKind) : Prop :=
  kind.GivesSides → ∀ text cut, kind.cut? text = some cut → cut.left ≠ text ∧ cut.right ≠ text

/-- The three groups are never longer than the text, taken together. -/
def Partitions (kind : TokenKind) : Prop :=
  kind.GivesSides → ∀ text cut, kind.cut? text = some cut →
    cut.left.length + cut.marker.length + cut.right.length ≤ text.length

/-- All other separators cut a text apart. -/
theorem slices_or_givesSides (h : kind.cut? text = some cut) : kind.Slices ∨ kind.GivesSides := by
  cases kind with
  | patternSeparator name p =>
    by_cases hp : p.groups ≤ 1
    · exact .inl hp
    · refine .inr ?_
      obtain ⟨p', hp', h⟩ := Option.bind_eq_some_iff.mp h
      obtain rfl := Option.some.inj hp'
      obtain ⟨m, -, h⟩ := Option.bind_eq_some_iff.mp h
      have hcut := (Option.filter_eq_some_iff.mp h).1
      split at hcut
      · omega
      · split at hcut
        · assumption
        · cases hcut
  | _ => exact .inl trivial

theorem infix_of_text? {m : Match} {index : Nat} {part : List Char}
    (h : m.text? text index = some part) : part <:+: text := by
  obtain ⟨⟨start, stop⟩, -, rfl⟩ := Option.map_eq_some_iff.mp h
  exact (List.take_prefix _ _).isInfix.trans (List.drop_suffix _ _).isInfix

theorem getD_infix_of_text? (m : Match) (text : List Char) (index : Nat) :
    (m.text? text index).getD [] <:+: text := by
  cases h : m.text? text index with
  | none => exact List.nil_infix
  | some part => exact infix_of_text? h

/-- What is cut out of a text, and what is left on either side, are parts of it. -/
theorem infix_of_cut? (h : kind.cut? text = some cut) :
    cut.left <:+: text ∧ cut.marker <:+: text ∧ cut.right <:+: text := by
  rcases slices_or_givesSides h with hkind | hkind
  · have htext := eq_of_cut? hkind h
    refine ⟨⟨[], cut.marker ++ cut.right, ?_⟩, ⟨cut.left, cut.right, htext.symm⟩,
      ⟨cut.left ++ cut.marker, [], by rw [List.append_nil]; exact htext.symm⟩⟩
    rw [List.nil_append, ← List.append_assoc]
    exact htext.symm
  · cases kind with
    | patternSeparator name p =>
      obtain ⟨p', hp', h⟩ := Option.bind_eq_some_iff.mp h
      obtain rfl := Option.some.inj hp'
      obtain ⟨m, -, h⟩ := Option.bind_eq_some_iff.mp h
      have hcut := (Option.filter_eq_some_iff.mp h).1
      have hgroups : p.groups = 3 := hkind
      rw [hgroups, if_neg (by decide), if_pos rfl] at hcut
      obtain ⟨marker, hmarker, rfl⟩ := Option.map_eq_some_iff.mp hcut
      exact ⟨getD_infix_of_text? m text 1, infix_of_text? hmarker, getD_infix_of_text? m text 3⟩
    | _ => exact absurd hkind id

/-- Each side of a cut is shorter than the text. -/
theorem Narrows.length_lt (hkind : kind.Narrows) (h : kind.cut? text = some cut) :
    cut.left.length < text.length ∧ cut.right.length < text.length := by
  rcases slices_or_givesSides h with hslices | hsides
  · exact length_lt_of_cut? hslices h
  · obtain ⟨hleft, hright⟩ := hkind hsides text cut h
    obtain ⟨hleft', -, hright'⟩ := infix_of_cut? h
    constructor
    · exact lt_of_le_of_ne hleft'.length_le fun heq => hleft (hleft'.eq_of_length heq)
    · exact lt_of_le_of_ne hright'.length_le fun heq => hright (hright'.eq_of_length heq)

theorem Partitions.length_le (hkind : kind.Partitions) (h : kind.cut? text = some cut) :
    cut.left.length + cut.marker.length + cut.right.length ≤ text.length := by
  rcases slices_or_givesSides h with hslices | hsides
  · have htext := congrArg List.length (eq_of_cut? hslices h)
    rw [List.length_append, List.length_append] at htext
    omega
  · exact hkind hsides text cut h

/-- The separator itself is not empty. -/
theorem Partitions.narrows (hkind : kind.Partitions) : kind.Narrows := by
  intro hsides text cut h
  have hparts := hkind hsides text cut h
  have hmarker := List.length_pos_iff.mpr (marker_ne_nil h)
  constructor
  · intro hleft
    rw [hleft] at hparts
    omega
  · intro hright
    rw [hright] at hparts
    omega

end TokenKind

/-! ## Passes of a separator -/

namespace Span

variable {sep : TokenType} {s : Span} {spans : List Span} {text : List Char} {cut : Cut} {n m : Nat}
  {work : List (Span × Bool)} {item : Span × Bool}

/-- Where a span is cut in a pass.  Separators are left alone, and so are texts
that were tried before. -/
def cutIn? (sep : TokenType) (item : Span × Bool) : Option Cut :=
  if item.2 || item.1.isSeparator then none else sep.kind.cut? item.1.text

/-- What a pass makes of a span.  The sides of a cut are still to be tried. -/
def passOne (sep : TokenType) (item : Span × Bool) : List (Span × Bool) :=
  match cutIn? sep item with
  | some cut =>
    (ofText cut.left).map (·, false) ++ (⟨cut.marker, some sep⟩, true) ::
      (ofText cut.right).map (·, false)
  | none => if item.2 || item.1.isSeparator then [item] else [(item.1, true)]

def pass (sep : TokenType) (work : List (Span × Bool)) : List (Span × Bool) :=
  work.flatMap (passOne sep)

/-- Passes until one changes nothing.  Nothing if that takes more of them than given. -/
def passes (sep : TokenType) : Nat → List (Span × Bool) → Option (List (Span × Bool))
  | 0, _ => none
  | n + 1, work =>
    if work.any fun item =>
      (cutIn? sep item).isSome then passes sep n (pass sep work) else some (pass sep work)

/-- Split at a separator in so many passes. -/
def splitWithin (sep : TokenType) (n : Nat) (spans : List Span) : Option (List Span) :=
  (passes sep n (spans.map (·, false))).map (·.map (·.1))

/-- As many levels as there are characters are enough. -/
theorem splitText_eq_of_le (hsep : sep.kind.Narrows) (hn : text.length ≤ n) (hm : text.length ≤ m) :
    splitText sep n text = splitText sep m text := by
  induction n generalizing m text with
  | zero =>
    obtain rfl := List.length_eq_zero_iff.mp (Nat.le_zero.mp hn)
    cases m <;> rfl
  | succ n ih =>
    cases text with
    | nil => cases m <;> rfl
    | cons c cs =>
      obtain ⟨m, rfl⟩ := Nat.exists_eq_add_one_of_ne_zero (Nat.ne_zero_of_lt hm)
      rw [splitText, splitText]
      split
      · rfl
      · next cut hcut =>
        obtain ⟨hleft, hright⟩ := hsep.length_lt hcut
        have hlefts : splitText sep n cut.left = splitText sep m cut.left :=
          ih (by omega) (by omega)
        have hrights : splitText sep n cut.right = splitText sep m cut.right :=
          ih (by omega) (by omega)
        rw [hlefts, hrights]

theorem splitText_of_some (hsep : sep.kind.Narrows) (htext : text ≠ [])
    (hcut : sep.kind.cut? text = some cut) :
    splitText sep text.length text = splitText sep cut.left.length cut.left ++
      ⟨cut.marker, some sep⟩ :: splitText sep cut.right.length cut.right := by
  obtain ⟨c, cs, rfl⟩ := List.exists_cons_of_ne_nil htext
  obtain ⟨hleft, hright⟩ := hsep.length_lt hcut
  rw [List.length_cons] at hleft hright
  rw [List.length_cons, splitText]
  simp only [hcut]
  rw [splitText_eq_of_le hsep (Nat.le_of_lt_succ hleft) (le_refl _),
    splitText_eq_of_le hsep (Nat.le_of_lt_succ hright) (le_refl _)]

theorem splitText_of_none (htext : text ≠ []) (hcut : sep.kind.cut? text = none) :
    splitText sep text.length text = [plain text] := by
  obtain ⟨c, cs, rfl⟩ := List.exists_cons_of_ne_nil htext
  rw [List.length_cons, splitText]
  simp only [hcut]

/-- What will be made of a span in the end. -/
def settle (sep : TokenType) (item : Span × Bool) : List Span :=
  if item.2 || item.1.isSeparator then [item.1] else splitText sep item.1.text.length item.1.text

theorem settle_ofText (text : List Char) : ((ofText text).map (·, false)).flatMap (settle sep) =
    splitText sep text.length text := by
  cases text with
  | nil => rfl
  | cons c cs => exact List.append_nil _

/-- A text that is not cut stays as it is. -/
theorem settle_of_cutIn?_none (htext : item.1.text ≠ []) (h : cutIn? sep item = none) :
    settle sep item = [item.1] := by
  rw [cutIn?] at h
  rw [settle]
  split at h
  · next hdone => rw [if_pos hdone]
  · next hdone =>
    rw [if_neg hdone, splitText_of_none htext h]
    obtain ⟨⟨text, _ | sep⟩, tried⟩ := item
    · rfl
    · exact absurd (Bool.or_true tried) hdone

theorem settle_passOne (hsep : sep.kind.Narrows) (htext : item.1.text ≠ []) :
    (passOne sep item).flatMap (settle sep) = settle sep item := by
  rw [passOne]
  cases hcut : cutIn? sep item with
  | none =>
    rw [settle_of_cutIn?_none htext hcut]
    simp only
    split
    · next hdone => rw [List.flatMap_singleton, settle, if_pos hdone]
    · rfl
  | some cut =>
    rw [cutIn?] at hcut
    split at hcut
    · cases hcut
    · next hdone =>
      have hitem : settle sep item = splitText sep item.1.text.length item.1.text := if_neg hdone
      rw [hitem, splitText_of_some hsep htext hcut, List.flatMap_append, List.flatMap_cons,
        settle_ofText, settle_ofText]
      rfl

/-- A span that is still to be tried. -/
def Untried (item : Span × Bool) : Prop := (item.2 || item.1.isSeparator) = false

/-- What is still to be tried behind a pass is one side of a cut, and shorter than what was cut. -/
theorem passOne_untried (hsep : sep.kind.Narrows) {item' : Span × Bool}
    (h : item' ∈ passOne sep item) (hopen : Untried item') :
    Untried item ∧ item'.1.text.length < item.1.text.length := by
  rw [passOne] at h
  split at h
  · next cut hcut =>
    rw [cutIn?] at hcut
    split at hcut
    · cases hcut
    · next hdone =>
      obtain ⟨hleft, hright⟩ := hsep.length_lt hcut
      have hside : ∀ {side : List Char}, item' ∈ (ofText side).map (·, false) →
          item'.1.text = side := by
        intro side hmem
        obtain ⟨s, hs, rfl⟩ := List.mem_map.mp hmem
        cases side with
        | nil => exact absurd hs List.not_mem_nil
        | cons c cs =>
          obtain rfl := List.mem_singleton.mp hs
          rfl
      refine ⟨Bool.eq_false_iff.mpr hdone, ?_⟩
      rcases List.mem_append.mp h with h | h
      · rw [hside h]
        exact hleft
      · rcases List.mem_cons.mp h with rfl | h
        · exact absurd hopen nofun
        · rw [hside h]
          exact hright
  · split at h
    · next hdone =>
      obtain rfl := List.mem_singleton.mp h
      exact absurd (hdone.symm.trans hopen) nofun
    · obtain rfl := List.mem_singleton.mp h
      exact absurd hopen nofun

theorem text_ne_nil_of_mem_passOne {item' : Span × Bool} (htext : item.1.text ≠ [])
    (h : item' ∈ passOne sep item) : item'.1.text ≠ [] := by
  rw [passOne] at h
  split at h
  · next cut hcut =>
    rw [cutIn?] at hcut
    split at hcut
    · cases hcut
    · rcases List.mem_append.mp h with h | h
      · obtain ⟨s, hs, rfl⟩ := List.mem_map.mp h
        exact text_ne_nil_of_mem_ofText hs
      · rcases List.mem_cons.mp h with rfl | h
        · exact TokenKind.marker_ne_nil hcut
        · obtain ⟨s, hs, rfl⟩ := List.mem_map.mp h
          exact text_ne_nil_of_mem_ofText hs
  · split at h
    · obtain rfl := List.mem_singleton.mp h
      exact htext
    · obtain rfl := List.mem_singleton.mp h
      exact htext

theorem map_fst_pass (htexts : ∀ item ∈ work, item.1.text ≠ [])
    (hcuts : ¬(work.any fun item => (cutIn? sep item).isSome) = true) :
    (pass sep work).map (·.1) = work.flatMap (settle sep) := by
  rw [pass, List.map_flatMap]
  refine List.flatMap_congr fun item hitem => ?_
  have hnone : cutIn? sep item = none := by
    by_contra hsome
    exact hcuts (List.any_eq_true.mpr ⟨item, hitem, Option.isSome_iff_ne_none.mpr hsome⟩)
  rw [settle_of_cutIn?_none (htexts item hitem) hnone, passOne, hnone]
  simp only
  split <;> rfl

/-- One more pass than the longest text has characters is the last at the latest. -/
theorem passes_eq (hsep : sep.kind.Narrows) (htexts : ∀ item ∈ work, item.1.text ≠ [])
    (hwork : ∀ item ∈ work, Untried item → item.1.text.length ≤ n) :
    (passes sep (n + 1) work).map (·.map (·.1)) = some (work.flatMap (settle sep)) := by
  induction n generalizing work with
  | zero =>
    have hcuts : ¬(work.any fun item => (cutIn? sep item).isSome) = true := by
      intro hany
      obtain ⟨item, hitem, hcut⟩ := List.any_eq_true.mp hany
      rw [cutIn?] at hcut
      split at hcut
      · cases hcut
      · next hdone =>
        have hle := hwork item hitem (Bool.eq_false_iff.mpr hdone)
        exact htexts item hitem (List.length_eq_zero_iff.mp (Nat.le_zero.mp hle))
    rw [passes, if_neg hcuts, Option.map_some, map_fst_pass htexts hcuts]
  | succ n ih =>
    rw [passes]
    split
    · have hpass : ∀ item' ∈ pass sep work, ∃ item ∈ work, item' ∈ passOne sep item :=
        fun _ => List.mem_flatMap.mp
      rw [ih, pass, List.flatMap_assoc]
      · exact congrArg
          some (List.flatMap_congr fun item hitem => settle_passOne hsep (htexts item hitem))
      · intro item' hitem'
        obtain ⟨item, hitem, hmem⟩ := hpass item' hitem'
        exact text_ne_nil_of_mem_passOne (htexts item hitem) hmem
      · intro item' hitem' hopen
        obtain ⟨item, hitem, hmem⟩ := hpass item' hitem'
        obtain ⟨hitemopen, hlt⟩ := passOne_untried hsep hmem hopen
        exact Nat.le_of_lt_succ (lt_of_lt_of_le hlt (hwork item hitem hitemopen))
    · next hcuts => rw [Option.map_some, map_fst_pass htexts hcuts]

/-- The passes of a separator come to an end, with the pieces that it leaves of each text. -/
theorem splitWithin_eq (hsep : sep.kind.Narrows) (htexts : ∀ s ∈ spans, s.text ≠ [])
    (hspans : ∀ s ∈ spans, s.text.length ≤ n) :
    splitWithin sep (n + 1) spans = some (splitAll sep spans) := by
  rw [splitWithin, passes_eq hsep (List.forall_mem_map.mpr htexts)
    (List.forall_mem_map.mpr fun s hs _ => hspans s hs), List.flatMap_map]
  rfl

end Span

/-! ## No span is longer than the text -/

namespace Span

variable {sep : TokenType} {s : Span} {spans : List Span} {text : List Char} {n : Nat}

theorem length_le_of_mem_ofText (h : s ∈ ofText text) : s.text.length ≤ text.length := by
  cases text with
  | nil => exact absurd h List.not_mem_nil
  | cons c cs =>
    obtain rfl := List.mem_singleton.mp h
    exact le_refl _

theorem length_le_of_mem_splitText : ∀ {n : Nat} {text : List Char}
    {s : Span}, s ∈ splitText sep n text → s.text.length ≤ text.length
  | 0, text, s, h => length_le_of_mem_ofText h
  | n + 1, [], s, h => absurd h List.not_mem_nil
  | n + 1, c :: cs, s, h => by
    rw [splitText] at h
    split at h
    · obtain rfl := List.mem_singleton.mp h
      exact le_refl _
    · next cut hcut =>
      obtain ⟨hleft, hmarker, hright⟩ := TokenKind.infix_of_cut? hcut
      rcases List.mem_append.mp h with h | h
      · exact le_trans (length_le_of_mem_splitText h) hleft.length_le
      · rcases List.mem_cons.mp h with rfl | h
        · exact hmarker.length_le
        · exact le_trans (length_le_of_mem_splitText h) hright.length_le

theorem length_le_of_mem_splitAll (hspans : ∀ s ∈ spans, s.text.length ≤ n)
    (hs : s ∈ splitAll sep spans) : s.text.length ≤ n := by
  obtain ⟨t, ht, hs⟩ := List.mem_flatMap.mp hs
  split at hs
  · obtain rfl := List.mem_singleton.mp hs
    exact hspans s ht
  · exact le_trans (length_le_of_mem_splitText hs) (hspans t ht)

theorem text_ne_nil_of_mem_splitAll (hspans : ∀ s ∈ spans, s.text ≠ [])
    (hs : s ∈ splitAll sep spans) : s.text ≠ [] := by
  obtain ⟨t, ht, hs⟩ := List.mem_flatMap.mp hs
  split at hs
  · obtain rfl := List.mem_singleton.mp hs
    exact hspans s ht
  · exact text_ne_nil_of_mem_splitText hs

/-- With so many passes for each of them all separators are applied. -/
theorem foldlM_splitWithin {separators : List TokenType}
    (hseparators : ∀ sep ∈ separators, sep.kind.Narrows) (htexts : ∀ s ∈ spans, s.text ≠ [])
    (hspans : ∀ s ∈ spans, s.text.length ≤ n) :
    separators.foldlM (fun spans sep => splitWithin sep (n + 1) spans) spans =
      some (separators.foldl (fun spans sep => splitAll sep spans) spans) := by
  induction separators generalizing spans with
  | nil => rfl
  | cons sep separators ih =>
    rw [List.forall_mem_cons] at hseparators
    rw [List.foldlM_cons, splitWithin_eq hseparators.1 htexts hspans, List.foldl_cons]
    exact ih hseparators.2 (fun _ => text_ne_nil_of_mem_splitAll htexts) fun _ =>
      length_le_of_mem_splitAll hspans

/-- Nor are all of them together, if the sides of each cut do not overlap. -/
theorem length_flatMap_splitText (hsep : sep.kind.Partitions) : ∀ (n : Nat) (text : List Char),
    ((splitText sep n text).flatMap Span.text).length ≤ text.length
  | 0, text => by rw [splitText, flatMap_text_ofText]
  | n + 1, [] => Nat.zero_le _
  | n + 1, c :: cs => by
    rw [splitText]
    split
    · rw [List.flatMap_singleton]
      exact le_refl _
    · next cut hcut =>
      have hparts := hsep.length_le hcut
      have hleft := length_flatMap_splitText hsep n cut.left
      have hright := length_flatMap_splitText hsep n cut.right
      rw [List.flatMap_append, List.flatMap_cons, List.length_append, List.length_append]
      show _ + (cut.marker.length + _) ≤ _
      omega

theorem length_flatMap_splitAll (hsep : sep.kind.Partitions) (spans : List Span) :
    ((splitAll sep spans).flatMap Span.text).length ≤ (spans.flatMap Span.text).length := by
  rw [splitAll, List.flatMap_assoc]
  induction spans with
  | nil => exact le_refl _
  | cons s spans ih =>
    rw [List.flatMap_cons, List.flatMap_cons, List.length_append, List.length_append]
    refine Nat.add_le_add ?_ ih
    split
    · rw [List.flatMap_singleton]
    · exact length_flatMap_splitText hsep _ _

end Span

namespace Splitter

variable {sp : Splitter} {s : Span} {text : List Char}

/-- A span is no longer than the text, unless a cut is taken back whose sides overlap. -/
theorem length_le_of_mem_split (hparts : sp.literalAware = true → ∀ sep ∈ sp.separators,
      sep.kind.Partitions) (hs : s ∈ sp.split text) : s.text.length ≤ text.length := by
  rw [split_eq] at hs
  by_cases haware : sp.literalAware = true
  · rw [if_pos haware] at hs
    have htotal : ((sp.cutUp text).flatMap Span.text).length ≤ text.length :=
      cutUp_induct (P := fun spans => (spans.flatMap Span.text).length ≤ text.length)
        (le_of_eq (congrArg List.length (Span.flatMap_text_ofText text)))
        fun sep hmem spans h =>
          le_trans (Span.length_flatMap_splitAll (hparts haware sep hmem) spans) h
    have hpart := (List.infix_of_mem_flatten (List.mem_map_of_mem (f := Span.text) hs)).length_le
    rw [← List.flatMap_def, Span.flatMap_text_merge, List.flatMap_def, Span.text_demote,
      ← List.flatMap_def] at hpart
    exact le_trans hpart htotal
  · rw [if_neg haware, Span.merge_of_apart (sp.apart_cutUp text)] at hs
    have hall : ∀ s ∈ sp.cutUp text, s.text.length ≤ text.length :=
      cutUp_induct (P := fun spans => ∀ s ∈ spans, s.text.length ≤ text.length)
        (fun _ => Span.length_le_of_mem_ofText) fun _ _ _ h _ => Span.length_le_of_mem_splitAll h
    exact hall s hs

end Splitter

/-! ## Texts behind markers -/

namespace Lexer

variable {lx : Lexer} {text rest : List Char} {s : Span} {n m : Nat} {before : Position}
  {within within' bottom bottom' : List Char → Position → Except UnknownSpan (List Token)}

/-- The text that is left of a span when a marker is cut off, from its start or else from its end.
A literal keeps its markers. -/
def Strips (lx : Lexer) (text rest : List Char) : Prop :=
  (lx.literal.filter fun _ => isLiteralText text) = none ∧
    match lx.leading.findSome? fun t => (t.kind.remainingRight? text).map (t, ·) with
    | some (_, rest') => rest' = rest
    | none =>
      ∃ t, lx.trailing.findSome? (fun t => (t.kind.remainingLeft? text).map (t, ·)) = some (t, rest)

/-- To classify a text a part of it is classified like a text of its own: what is
left of one of its spans. -/
def Calls (lx : Lexer) (text rest : List Char) : Prop :=
  ∃ s ∈ lx.splitter.split text, s.separator = none ∧ lx.Strips s.text rest

/-- Classify a text with so many levels, and what lies below them by other means. -/
def classifyAbove (lx : Lexer) (bottom : List Char → Position → Except UnknownSpan (List Token)) :
    Nat → List Char → Position → Except UnknownSpan (List Token)
  | 0, text, before => bottom text before
  | n + 1, text, before =>
    lx.classifySpans (classifyAbove lx bottom n) (lx.splitter.split text) before

theorem classifyText_eq_classifyAbove (n : Nat) :
    lx.classifyText n = lx.classifyAbove (fun _ _ => .ok []) n := by
  induction n with
  | zero =>
    funext text before
    rw [classifyText, classifyAbove]
  | succ n ih =>
    funext text before
    rw [classifyText, classifyAbove, ih]

/-- Nothing else is classified on its own. -/
theorem classifySpan_congr (h : ∀ rest, lx.Strips text rest →
      ∀ before, within rest before = within' rest before) (before : Position) :
    lx.classifySpan within text before = lx.classifySpan within' text before := by
  unfold classifySpan
  split
  · rfl
  · next hliteral =>
    split
    · next t rest hleading =>
      have hstrips : lx.Strips text rest := ⟨hliteral, by rw [hleading]⟩
      simp only [h rest hstrips]
    · next hleading =>
      split
      · next t rest htrailing =>
        have hstrips : lx.Strips text rest := ⟨hliteral, by rw [hleading]; exact ⟨t, htrailing⟩⟩
        simp only [h rest hstrips]
      · rfl

theorem classifySpans_congr : ∀ {spans : List Span},
    (∀ s ∈ spans, s.separator = none → ∀ rest, lx.Strips s.text rest → ∀ before,
      within rest before = within' rest before) →
    ∀ before, lx.classifySpans within spans before = lx.classifySpans within' spans before
  | [], _, _ => rfl
  | s :: spans, h, before => by
    rw [classifySpans, classifySpans]
    have hrest :
        ∀ before, lx.classifySpans within spans before = lx.classifySpans within' spans before :=
      classifySpans_congr fun s hs => h s (List.mem_cons_of_mem _ hs)
    cases hs : s.separator with
    | some sep => simp only [hrest]
    | none =>
      have hspan := classifySpan_congr (h s List.mem_cons_self hs) before
      simp only [hspan, hrest]

/-- Markers that are cut off are not empty. -/
structure Marks (lx : Lexer) : Prop where
  leading : ∀ t ∈ lx.leading, t.kind ≠ .leading ""
  trailing : ∀ t ∈ lx.trailing, t.kind ≠ .trailing ""

theorem Strips.length_lt (h : lx.Strips text rest) (hlx : lx.Marks) :
    rest.length < text.length := by
  have hmarker : ∀ {marker : String}, marker ≠ "" → 0 < marker.toList.length := fun hne =>
    List.length_pos_iff.mpr fun hnil => hne (String.toList_eq_nil_iff.mp hnil)
  obtain ⟨-, h⟩ := h
  split at h
  · next t rest' hleading =>
    subst h
    obtain ⟨ht, hrest⟩ := exists_of_findSome? hleading
    obtain ⟨marker, hkind, rfl, -⟩ := TokenKind.exists_of_remainingRight? hrest
    have hpos := hmarker fun hempty => hlx.leading t ht (hempty ▸ hkind)
    rw [List.length_append]
    omega
  · obtain ⟨t, htrailing⟩ := h
    obtain ⟨ht, hrest⟩ := exists_of_findSome? htrailing
    obtain ⟨marker, hkind, rfl, -⟩ := TokenKind.exists_of_remainingLeft? hrest
    have hpos := hmarker fun hempty => hlx.trailing t ht (hempty ▸ hkind)
    rw [List.length_append]
    omega

theorem Calls.length_lt (h : lx.Calls text rest) (hlx : lx.Marks)
    (hparts : lx.splitter.literalAware = true →
      ∀ sep ∈ lx.splitter.separators, sep.kind.Partitions) : rest.length < text.length := by
  obtain ⟨s, hs, -, hstrips⟩ := h
  exact lt_of_lt_of_le (hstrips.length_lt hlx) (Splitter.length_le_of_mem_split hparts hs)

/-- With more levels than there are characters the last ones are never reached,
whatever lies below them. -/
theorem classifyAbove_eq (hlx : lx.Marks)
    (hparts : lx.splitter.literalAware = true → ∀ sep ∈ lx.splitter.separators, sep.kind.Partitions)
    (hn : text.length < n) (hm : text.length < m) (before : Position) :
    lx.classifyAbove bottom n text before = lx.classifyAbove bottom' m text before := by
  induction n generalizing text m before with
  | zero => exact absurd hn (Nat.not_lt_zero _)
  | succ n ih =>
    obtain ⟨m, rfl⟩ := Nat.exists_eq_add_one_of_ne_zero (Nat.ne_zero_of_lt hm)
    rw [classifyAbove, classifyAbove]
    refine classifySpans_congr (fun s hs hnone rest hstrips before => ?_) before
    have hlt := Calls.length_lt ⟨s, hs, hnone, hstrips⟩ hlx hparts
    exact ih (lt_of_lt_of_le hlt (Nat.le_of_lt_succ hn))
      (lt_of_lt_of_le hlt (Nat.le_of_lt_succ hm)) before

theorem classifyAbove_eq_classify (hlx : lx.Marks)
    (hparts : lx.splitter.literalAware = true → ∀ sep ∈ lx.splitter.separators, sep.kind.Partitions)
    (hn : text.length < n) (bottom : List Char → Position → Except UnknownSpan (List Token))
    (before : Position) : lx.classifyAbove bottom n text before = lx.classify text before := by
  rw [classify, classifyText_eq_classifyAbove]
  exact classifyAbove_eq hlx hparts hn (by omega) before

end Lexer

/-! ## The stream -/

namespace Stream

variable {lx : Lexer} {s s' : Stream} {c : Char} {seen : List Char} {mode : Mode} {m n : Nat}

/-- As many steps as there are characters left are enough for a chunk. -/
theorem readChunk_eq (hs : 0 < s.window.size) (hm : s.window.rest.length ≤ m)
    (hn : s.window.rest.length ≤ n) : s.readChunk lx m = s.readChunk lx n := by
  induction m generalizing s n with
  | zero =>
    have hrest := List.length_eq_zero_iff.mp (Nat.le_zero.mp hm)
    cases n with
    | zero => rfl
    | succ n =>
      rw [readChunk, readChunk]
      simp only [Window.lookahead, hrest, List.take_nil]
  | succ m ih =>
    cases n with
    | zero =>
      have hrest := List.length_eq_zero_iff.mp (Nat.le_zero.mp hn)
      rw [readChunk, readChunk]
      simp only [Window.lookahead, hrest, List.take_nil]
    | succ n =>
      rw [readChunk, readChunk]
      split
      · rfl
      · next c cs hahead =>
        have hadvances := advances_step (s := s) lx c
          (c :: cs) (rest_ne_nil (by rw [hahead]; exact List.cons_ne_nil _ _))
        split
        · rfl
        · next t hstep =>
          rw [hstep] at hadvances
          have hlt : t.window.rest.length < s.window.rest.length := hadvances.lt
          exact ih (by rw [hadvances.size]; exact hs) (by omega) (by omega)

/-- A change of mode reads something. -/
theorem enter_lt (hrest : s.window.rest ≠ []) (h : s.nextMode lx c seen = (some mode, s')) :
    (s'.enter lx mode).2.window.rest.length < s.window.rest.length := by
  have hadvances := advances_step (s := s) lx c seen hrest
  rw [step, h] at hadvances
  exact hadvances.lt

end Stream

/-- Where markers are not empty and the outer groups of separators are never the whole
text, lexing comes to an end:

* passes of a separator, after as many as the longest text has characters and one more, and so those
  of all of them,
* reading chunks, since each step and each change of mode reads at least one character,
* classifying, without ever reaching the last of as many levels as the text has characters.  Where
  cuts may be taken back this needs groups that overlap with neither each other nor the
  separator. -/
theorem Lexer.lexing_ends (lx : Lexer) (hmarks : lx.Marks)
    (hnarrows : ∀ sep ∈ lx.splitter.separators, sep.kind.Narrows) : (∀ sep ∈ lx.splitter.separators,
      ∀ spans n, (∀ s ∈ spans, s.text ≠ []) → (∀ s ∈ spans, s.text.length ≤ n) →
      Span.splitWithin sep (n + 1) spans = some (Span.splitAll sep spans)) ∧
    (∀ text n, text.length < n → lx.splitter.separators.foldlM (fun spans sep =>
      Span.splitWithin sep n spans) (Span.ofText text) = some (lx.splitter.cutUp text)) ∧
    (∀ s : Stream, s.window.rest ≠ [] → ∀ c seen,
      (s.step lx c seen).2.window.rest.length < s.window.rest.length ∧
      ∀ mode s', s.nextMode lx c seen = (some mode, s') →
        (s'.enter lx mode).2.window.rest.length < s.window.rest.length) ∧
    (∀ s : Stream, 0 < s.window.size → ∀ n, s.window.rest.length ≤ n →
      s.readChunk lx n = s.nextChunk lx) ∧
    (∀ text source n, text.length < n →
      (lx.stream text source).results lx = (lx.stream text source).drain lx n) ∧
    ((lx.splitter.literalAware = true → ∀ sep ∈ lx.splitter.separators, sep.kind.Partitions) →
      (WellFounded fun rest text => lx.Calls text rest) ∧
      ∀ text before n bottom, text.length < n →
      lx.classifyAbove bottom n text before = lx.classify text before) := by
  refine ⟨?_, ?_, ?_, ?_, ?_, fun hparts => ⟨?_, ?_⟩⟩
  · intro sep hsep spans n htexts hspans
    exact Span.splitWithin_eq (hnarrows sep hsep) htexts hspans
  · intro text n hn
    obtain ⟨n, rfl⟩ := Nat.exists_eq_add_one_of_ne_zero (Nat.ne_zero_of_lt hn)
    refine Span.foldlM_splitWithin hnarrows (fun _ => Span.text_ne_nil_of_mem_ofText) fun s hs => ?_
    exact le_trans (Span.length_le_of_mem_ofText hs) (Nat.le_of_lt_succ hn)
  · intro s hrest c seen
    exact ⟨(Stream.advances_step lx c seen hrest).lt,
      fun mode s' hnext => Stream.enter_lt hrest hnext⟩
  · intro s hs n hn
    exact Stream.readChunk_eq hs hn (le_refl _)
  · intro text source n hn
    exact Stream.drain_eq (Stream.idle_stream lx text source) (Nat.lt_succ_self _) hn
  · exact Subrelation.wf (fun hcalls => Calls.length_lt hcalls hmarks hparts)
      (measure List.length).wf
  · intro text before n bottom hn
    exact classifyAbove_eq_classify hmarks hparts hn bottom before

namespace Sample.Assignment

/-- An equals sign, with all that is in front of it and all that is behind it. -/
def equals : Pattern :=
  ⟨.ofList [.look .textStart, .group 1 (.ofList [Pattern.anything]), .group 2 (.ofList [.char '=']),
    .group 3 (.ofList [Pattern.anything]), .look .textEnd], 3⟩

def separator : TokenType := ⟨4, .patternSeparator "(?s)^(.*)(=)(.*)$" equals⟩

def lexer : Lexer := .ofTypes [⟨1, .literal⟩, ⟨2, .leading "$"⟩, ⟨3, .trailing "++"⟩, separator]

theorem marks_lexer : lexer.Marks where
  leading t ht := by
    obtain rfl := List.mem_singleton.mp ht
    intro hempty
    exact absurd (TokenKind.leading.inj hempty) (by decide)
  trailing t ht := by
    obtain rfl := List.mem_singleton.mp ht
    intro hempty
    exact absurd (TokenKind.trailing.inj hempty) (by decide)

/-- The groups follow one another. -/
theorem partitions_separator : separator.kind.Partitions := by
  intro _ text cut h
  obtain ⟨p, hp, h⟩ := Option.bind_eq_some_iff.mp h
  obtain rfl := Option.some.inj hp
  obtain ⟨m, hfind, h⟩ := Option.bind_eq_some_iff.mp h
  have hcut := (Option.filter_eq_some_iff.mp h).1
  obtain ⟨cur, cur', gs, hcur, hwalks, rfl⟩ := Pattern.exists_walks_of_find hfind
  obtain ⟨rfl, hbody⟩ := hwalks.of_textStart hcur
  obtain ⟨cur₁, gs₁, hleft, hbody⟩ := hbody.of_group_seq
  obtain ⟨cur₂, gs₂, hmarker, hbody⟩ := hbody.of_group_seq
  obtain ⟨cur₃, gs₃, hright, hbody⟩ := hbody.of_group_seq
  obtain ⟨rfl, rfl, -⟩ := hbody.of_textEnd
  have hgroups : ∀ {cur cur' : Cursor} {gs gs' : Groups},
      Regex.Walks (.ofList [Pattern.anything]) cur gs cur' gs' → gs' = gs := by
    intro cur cur' gs gs' hwalks
    obtain ⟨_, _, hall, hempty⟩ := hwalks.of_seq
    obtain ⟨_, -, rfl⟩ := hall.of_anything
    cases hempty
    rfl
  obtain rfl := hgroups hright
  obtain rfl := hgroups hleft
  have hequals : Regex.Walks (.literal ['=']) cur₁ _ cur₂ _ := hmarker
  obtain ⟨hread, rfl⟩ := hequals.of_literal
  obtain rfl := Option.some.inj hcut
  have hle := hread.pos
  show ((text.drop 0).take (cur₁.pos - 0)).length +
      ((text.drop cur₁.pos).take (cur₂.pos - cur₁.pos)).length +
    ((text.drop cur₂.pos).take (cur'.pos - cur₂.pos)).length ≤ text.length
  simp only [List.length_take, List.length_drop]
  omega

/-- The separator is applied in three passes out of six, and below five levels nothing is asked
for. -/
theorem lexing_ends_assignment :
    lexer.Marks ∧ separator.kind.Narrows ∧ separator.kind.Partitions ∧
    Pattern.ofText? "(?s)^(.*)(=)(.*)$" = some equals ∧
    (Span.splitWithin separator 6 [.plain "a=b=c".toList]).map (·.map (·.text)) =
      some ["a".toList, "=".toList, "b".toList, "=".toList, "c".toList] ∧
    Span.splitWithin separator 6 [.plain "a=b=c".toList] =
      some (Span.splitAll separator [.plain "a=b=c".toList]) ∧
    (WellFounded fun rest text => lexer.Calls text rest) ∧
    (∀ bottom, lexer.classifyAbove bottom 5 "$x++".toList .origin =
      lexer.classify "$x++".toList .origin) ∧
    (lexer.stream "$x='a b'".toList none).results lexer =
      (lexer.stream "$x='a b'".toList none).drain lexer 9 := by
  have hseparators : ∀ {P : TokenType → Prop}, P separator →
      ∀ sep ∈ lexer.splitter.separators, P sep := by
    intro P hP sep hsep
    obtain rfl := List.mem_singleton.mp hsep
    exact hP
  have hnarrows := partitions_separator.narrows
  obtain ⟨hpasses, -, -, -, hstream, hclassifying⟩ := Lexer.lexing_ends lexer marks_lexer
    (hseparators (P := fun sep => sep.kind.Narrows) hnarrows)
  obtain ⟨hcalls, hlevels⟩ := hclassifying fun _ =>
    hseparators (P := fun sep => sep.kind.Partitions) partitions_separator
  refine ⟨marks_lexer, hnarrows, partitions_separator, by decide +kernel, by
    decide +kernel, ?_, hcalls,
    fun bottom => hlevels _ _ _ bottom (by decide), hstream _ _ _ (by decide)⟩
  refine hpasses separator (List.mem_singleton_self _) _ 5 ?_ ?_
  · exact List.forall_mem_singleton.mpr (by decide)
  · exact List.forall_mem_singleton.mpr (by decide)

end Sample.Assignment

namespace TokenKind

variable {text : List Char} {name : String} {set : CharSet} {r : Regex}
  {groups index : Nat} {m : Match}

/-- In front of all groups a character is read. -/
theorem group_ne_of_find (h : Pattern.find ⟨.seq (.set set) r, groups⟩ text = some m)
    (hindex : index ≠ 0) : (m.text? text index).getD [] ≠ text := by
  obtain ⟨cur, cur', gs, ⟨read, hread⟩, hwalks, rfl⟩ := Pattern.exists_walks_of_find h
  obtain ⟨cur₁, gs₁, hset, hrest⟩ := hwalks.of_seq
  obtain _ | hstep := hset
  obtain ⟨c, -, hc⟩ := Cursor.reads_of_step? hstep
  have hpos : 0 < cur₁.pos := by
    rw [hc.pos]
    exact Nat.succ_pos _
  have htext : text ≠ [] := by
    rw [(hread.trans hc).text_of_start]
    simp
  obtain ⟨closed, rfl, hwithin⟩ := hrest.groups
  rw [Match.text?, Match.group?, if_neg hindex, List.append_nil]
  cases hfind : closed.find? fun g => g.1 == index with
  | none => exact Ne.symm htext
  | some g =>
    have hstart := (hwithin g (List.mem_of_find?_eq_some hfind)).1
    intro heq
    have hlength := congrArg List.length heq
    simp only [Option.map_some, Option.getD_some, List.length_take, List.length_drop] at hlength
    have hlt := List.length_pos_iff.mpr htext
    omega

theorem narrows_of_set : (TokenKind.patternSeparator name ⟨.seq (.set set) r, groups⟩).Narrows := by
  intro hgroups text cut h
  obtain rfl : groups = 3 := hgroups
  obtain ⟨p, hp, h⟩ := Option.bind_eq_some_iff.mp h
  obtain rfl := Option.some.inj hp
  obtain ⟨m, hfind, h⟩ := Option.bind_eq_some_iff.mp h
  have hcut := (Option.filter_eq_some_iff.mp h).1
  rw [if_neg (by simp), if_pos rfl] at hcut
  obtain ⟨marker, -, rfl⟩ := Option.map_eq_some_iff.mp hcut
  exact ⟨group_ne_of_find hfind (by decide), group_ne_of_find hfind (by decide)⟩

end TokenKind

namespace Sample.Overlap

/-- A dollar sign between quotes.  What counts as the text before it contains it,
and the quote behind it. -/
def dollar : Pattern :=
  ⟨.ofList [.char '\x27',
      .group 1 (.ofList [.group 2 (.ofList [.char '$']), .group 3 (.ofList [.char '\x27'])])], 3⟩

def lexer : Lexer :=
  .ofTypes [⟨1, .literal⟩, ⟨2, .leading "$"⟩, ⟨3, .patternSeparator "\x27((\\$)(\x27))" dollar⟩]

/-- The dollar sign is cut out, and is text again since it stands between quotes.  By then
there is one more in front. -/
theorem split_quoted : lexer.splitter.split "\x27$\x27".toList = [.plain "$\x27$\x27".toList] := by
  have hspans :
      (lexer.splitter.split "\x27$\x27".toList).map (fun s => (s.text, s.separator.isNone)) =
      [("$\x27$\x27".toList, true)] := by decide +kernel
  obtain ⟨⟨text, separator⟩, hsplit, hspan⟩ := List.map_eq_singleton_iff.mp hspans
  obtain ⟨rfl, hnone⟩ := Prod.mk.inj hspan
  obtain rfl := Option.isNone_iff_eq_none.mp hnone
  exact hsplit

/-- Behind the first of them stands the text itself. -/
theorem leading_quoted : ∃ t, lexer.leading.findSome? (fun t =>
    (t.kind.remainingRight? "$\x27$\x27".toList).map (t, ·)) = some (t, "\x27$\x27".toList) := by
  have hrest : (lexer.leading.findSome? fun t => (t.kind.remainingRight? "$\x27$\x27".toList).map
      (t, ·)).map (·.2) = some "\x27$\x27".toList := by decide +kernel
  obtain ⟨⟨t, rest⟩, hleading, rfl⟩ := Option.map_eq_some_iff.mp hrest
  exact ⟨t, hleading⟩

theorem calls_self : lexer.Calls "\x27$\x27".toList "\x27$\x27".toList := by
  obtain ⟨t, hleading⟩ := leading_quoted
  refine ⟨.plain "$\x27$\x27".toList, by rw [split_quoted]; exact List.mem_singleton_self _, rfl,
    rfl, ?_⟩
  rw [Span.plain, hleading]

/-- What lies below the levels decides. -/
theorem classifyAbove_error (unknown : UnknownSpan) (n : Nat) (before : Position) :
    lexer.classifyAbove (fun _ _ => .error unknown) n "\x27$\x27".toList before =
      .error unknown := by
  induction n generalizing before with
  | zero => rfl
  | succ n ih =>
    obtain ⟨t, hleading⟩ := leading_quoted
    have hliteral : (lexer.literal.filter fun _ => isLiteralText "$\x27$\x27".toList) = none := rfl
    rw [Lexer.classifyAbove, split_quoted, Lexer.classifySpans, Span.plain, Lexer.classifySpan,
      hliteral]
    simp only [hleading, ih]
    rfl

/-- No number of levels is enough, though the marker is not empty and neither of the outer groups
is ever the whole text. -/
theorem classification_never_ends :
    lexer.Marks ∧ (∀ sep ∈ lexer.splitter.separators, sep.kind.Narrows) ∧
    Pattern.ofText? "\x27((\\$)(\x27))" = some dollar ∧
    (¬WellFounded fun rest text => lexer.Calls text rest) ∧
    ∀ n before unknown,
      lexer.classifyAbove (fun _ _ => .error unknown) n "\x27$\x27".toList before =
      .error unknown := by
  refine ⟨⟨?_, ?_⟩, ?_, by decide +kernel, ?_,
    fun n before unknown => classifyAbove_error unknown n before⟩
  · intro t ht
    obtain rfl := List.mem_singleton.mp ht
    intro hempty
    exact absurd (TokenKind.leading.inj hempty) (by decide)
  · exact fun t ht => absurd ht List.not_mem_nil
  · intro sep hsep
    obtain rfl := List.mem_singleton.mp hsep
    exact TokenKind.narrows_of_set
  · intro hwf
    exact hwf.asymmetric _ _ calls_self calls_self

end Sample.Overlap

end GrammarGraph
