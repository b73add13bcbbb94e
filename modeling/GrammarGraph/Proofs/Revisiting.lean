import GrammarGraph.Proofs.Bracketing

/-!
# When a path returns to a node

A node is not stepped onto again without a token in between, and a rule is not entered again
while it is open.  The test looks at the elements since the last token, the latest first, and
counts the instances of the rule that end behind the element it looks at.  On a well nested path
the ends that are counted are those of instances that start further back (`Path.strayEnds`), the
first of them that of the start which is come to next.  So a start is passed over if and only if
its instance has ended, also where other instances that end there were open before the last
token (`Path.revisits_iff`).
-/

namespace GrammarGraph

open DyckStep

namespace Path

variable {graph : Graph} {p : Path}
  {els inside inside' before before' front behind : List PathElement} {e start start' : PathElement}
  {node n : NodeId} {ns : List NodeId} {rule rule' : RuleId} {ident : Option String} {stop : NodeId}

/-- The elements behind the last one that carries a token. -/
def sinceToken (p : Path) : List PathElement := (p.elements.takeWhile (·.token.isNone)).reverse

/-- An instance that starts right in front of the elements ends with one of them. -/
def Closes (graph : Graph) (els : List PathElement) : Prop :=
  ∃ front e behind, els = front ++ e :: behind ∧ bracket? graph e = some D ∧ Balanced graph front

/-! ## The innermost open instance -/

/-- Behind a start that nothing ends no instance in front of it can end. -/
theorem Balanced.not_append (h : Balanced graph inside) (hstart : bracket? graph start = some U) :
    ¬Balanced graph (front ++ start :: inside) := by
  intro hall
  obtain ⟨hnests, hcount⟩ := balanced_iff.mp hall
  obtain ⟨-, hinside⟩ := balanced_iff.mp h
  rw [Nests, brackets_append] at hnests
  have hle := IsFront.count_le (IsFront.of_append hnests)
  rw [brackets_append, brackets_cons, hstart, List.count_append, List.count_append] at hcount
  simp only [Option.toList_some, List.singleton_append, List.count_cons, hinside] at hcount
  simp at hcount
  omega

/-- There is one innermost open instance. -/
theorem Innermost.unique (h : Innermost graph els before start inside rule)
    (h' : Innermost graph els before' start' inside' rule') :
    start = start' ∧ inside = inside' := by
  obtain ⟨rfl, ⟨ident, stop, hstart⟩, hbalanced⟩ := h
  obtain ⟨heq, ⟨ident', stop', hstart'⟩, hbalanced'⟩ := h'
  rcases List.append_eq_append_iff.mp heq with ⟨_ | ⟨x, front⟩, -, hrest⟩ |
    ⟨_ | ⟨x, front⟩, -, hrest⟩
  · exact List.cons.inj hrest
  · obtain ⟨-, rfl⟩ := List.cons.inj hrest
    exact absurd hbalanced (hbalanced'.not_append (by rw [bracket?, hstart']))
  · obtain ⟨hhead, htail⟩ := List.cons.inj hrest
    exact ⟨hhead.symm, htail.symm⟩
  · obtain ⟨-, rfl⟩ := List.cons.inj hrest
    exact absurd hbalanced' (hbalanced.not_append (by rw [bracket?, hstart]))

/-! ## Ends of instances that start further back -/

/-- The ends among the elements whose starts are not, the first one first. -/
def strayEnds (graph : Graph) : List PathElement → List NodeId
  | [] => []
  | e :: els =>
    match bracket? graph e with
    | some U => (strayEnds graph els).tail
    | some D => e.node :: strayEnds graph els
    | none => strayEnds graph els

theorem strayEnds_start (h : bracket? graph e = some U) :
    strayEnds graph (e :: els) = (strayEnds graph els).tail := by
  simp only [strayEnds, h]

theorem strayEnds_end (h : bracket? graph e = some D) :
    strayEnds graph (e :: els) = e.node :: strayEnds graph els := by
  simp only [strayEnds, h]

theorem strayEnds_other (h : bracket? graph e = none) :
    strayEnds graph (e :: els) = strayEnds graph els := by
  simp only [strayEnds, h]

/-- All that lies in front of the first of them is closed. -/
theorem exists_of_strayEnds :
    ∀ {els : List PathElement} {n : NodeId} {ns : List NodeId}, strayEnds graph els = n :: ns →
    ∃ front e behind, els = front ++ e :: behind ∧ e.node = n ∧ bracket? graph e = some D ∧
    Balanced graph front ∧ strayEnds graph behind = ns
  | [], _, _, h => absurd h nofun
  | x :: els, n, ns, h => by
    cases hb : bracket? graph x with
    | none =>
      rw [strayEnds_other hb] at h
      obtain ⟨front, e, behind, rfl, he, hend, hfront, hbehind⟩ := exists_of_strayEnds h
      exact ⟨x :: front, e, behind, rfl, he, hend, hfront.cons hb, hbehind⟩
    | some step =>
      cases step with
      | D =>
        rw [strayEnds_end hb] at h
        obtain ⟨hn, hns⟩ := List.cons.inj h
        exact ⟨[], x, els, rfl, hn, hb, balanced_nil, hns⟩
      | U =>
        rw [strayEnds_start hb] at h
        obtain ⟨m, hm⟩ : ∃ m, strayEnds graph els = m :: n :: ns := by
          cases hels : strayEnds graph els with
          | nil =>
            rw [hels] at h
            cases h
          | cons m ms =>
            rw [hels] at h
            exact ⟨m, by rw [← h, List.tail_cons]⟩
        -- The first of the ends belongs to the start, and what comes behind it is looked at once
        -- more.
        obtain ⟨front, stop, rest, rfl, -, hstop, hfront, hrest⟩ := exists_of_strayEnds hm
        obtain ⟨front', e, behind, rfl, he, hend, hfront', hbehind⟩ := exists_of_strayEnds hrest
        refine ⟨x :: front ++ stop :: front', e, behind, ?_, he, hend,
          hfront.enclose hfront' hb hstop, hbehind⟩
        simp
termination_by els => els.length
decreasing_by
  · simp
  · simp
  · subst_vars
    simp
    omega

/-- There are at least as many of them as there are more ends than starts. -/
theorem count_le_strayEnds : ∀ front : List PathElement, (brackets graph front).count D ≤
    (brackets graph front).count U + (strayEnds graph (front ++ behind)).length
  | [] => Nat.zero_le _
  | e :: front => by
    have hle := count_le_strayEnds front
    rw [brackets_cons, List.count_append, List.count_append, List.cons_append]
    cases hb : bracket? graph e with
    | none =>
      rw [strayEnds_other hb]
      simpa using hle
    | some step =>
      cases step with
      | U =>
        rw [strayEnds_start hb, List.length_tail]
        simp only [Option.toList_some, List.count_singleton]
        simp
        omega
      | D =>
        rw [strayEnds_end hb, List.length_cons]
        simp only [Option.toList_some, List.count_singleton]
        simp
        omega

theorem closes_iff : Closes graph els ↔ strayEnds graph els ≠ [] := by
  constructor
  · rintro ⟨front, e, behind, rfl, hend, hfront⟩ hnil
    have hle : _ ≤ _ + (strayEnds graph (front ++ [e] ++ behind)).length :=
      count_le_strayEnds (front ++ [e])
    rw [List.append_assoc, List.singleton_append, hnil, brackets_append, brackets_singleton, hend,
      List.count_append, List.count_append, (balanced_iff.mp hfront).2] at hle
    simp at hle
  · intro hne
    obtain ⟨n, ns, hns⟩ := List.exists_cons_of_ne_nil hne
    obtain ⟨front, e, behind, hels, -, hend, hfront, -⟩ := exists_of_strayEnds hns
    exact ⟨front, e, behind, hels, hend, hfront⟩

/-- The first of the ends behind a start belongs to it. -/
theorem WellNested.kind_of_strayEnds (h : p.WellNested graph)
    (hpath : p.toList = before ++ start :: inside)
    (hstart : graph.kind start.node = .ruleStart rule ident stop)
    (hstray : strayEnds graph inside = n :: ns) : graph.kind n = .ruleEnd rule ident := by
  obtain ⟨front, e, behind, rfl, rfl, hend, hfront, -⟩ := exists_of_strayEnds hstray
  obtain ⟨rule', ident', hk⟩ : ∃ rule' ident', graph.kind e.node = .ruleEnd rule' ident' := by
    rw [bracket?] at hend
    cases hk : graph.kind e.node with
    | ruleEnd rule' ident' => exact ⟨rule', ident', rfl⟩
    | _ =>
      rw [hk] at hend
      cases hend
  rw [← List.cons_append, ← List.append_assoc] at hpath
  obtain ⟨outside, start', inside', hinner, hstart'⟩ := h.closes _ e behind rule' ident' hpath hk
  obtain ⟨rfl, -⟩ := hinner.unique ⟨rfl, ⟨ident, stop, hstart⟩, hfront⟩
  obtain ⟨rfl, rfl, -⟩ := NodeKind.ruleStart.inj (hstart'.symm.trans hstart)
  exact hk

/-! ## The scan -/

/-- Only the node itself is looked for where it starts no rule. -/
theorem revisitsIn_iff_of_none (hn : (graph.kind node).startedRule? = none) (closed : Nat) :
    ∀ els : List PathElement, revisitsIn graph node closed els = true ↔
    ∃ e ∈ els.takeWhile (·.token.isNone), e.node = node
  | [] => by simp [revisitsIn]
  | ⟨m, some t⟩ :: els => by simp [revisitsIn]
  | ⟨m, none⟩ :: els => by
    rw [revisitsIn.eq_def]
    simp only [hn, Option.isSome_none, Bool.false_eq_true, if_false]
    have hrest := revisitsIn_iff_of_none hn closed els
    by_cases hm : m = node
    · simp [hm]
    · simpa [hm] using hrest

/-- Among the elements, which come with the tip first, is a start of the rule whose instance does
not end before it, nor behind it among those `inside`. -/
def Reopens (graph : Graph) (rule : RuleId) (inside els : List PathElement) : Prop :=
  ∃ behind e front, els = behind ++ e :: front ∧ (graph.kind e.node).startedRule? = some rule ∧
    ¬Closes graph (behind.reverse ++ inside)

theorem reopens_cons : Reopens graph rule inside (e :: els) ↔
    ((graph.kind e.node).startedRule? = some rule ∧ ¬Closes graph inside) ∨
    Reopens graph rule (e :: inside) els := by
  constructor
  · rintro ⟨_ | ⟨x, behind⟩, e', front, heq, hrule, hopen⟩
    · obtain ⟨rfl, -⟩ := List.cons.inj heq
      exact .inl ⟨hrule, hopen⟩
    · obtain ⟨rfl, rfl⟩ := List.cons.inj heq
      rw [List.reverse_cons, List.append_assoc] at hopen
      exact .inr ⟨behind, e', front, rfl, hrule, hopen⟩
  · rintro (⟨hrule, hopen⟩ | ⟨behind, e', front, rfl, hrule, hopen⟩)
    · exact ⟨[], e, els, rfl, hrule, hopen⟩
    · refine ⟨e :: behind, e', front, rfl, hrule, ?_⟩
      rw [List.reverse_cons, List.append_assoc]
      exact hopen

/-- How many of the ends whose starts are further back end an instance of the rule. -/
def strayCount (graph : Graph) (rule : RuleId) (inside : List PathElement) : Nat :=
  (strayEnds graph inside).countP fun n => (graph.kind n).endedRule? = some rule

theorem strayCount_end (hk : graph.kind e.node = .ruleEnd rule' ident) :
    strayCount graph rule (e :: inside) =
      strayCount graph rule inside + if rule' = rule then 1 else 0 := by
  rw [strayCount, strayEnds_end (by rw [bracket?, hk]), List.countP_cons, ← strayCount, hk]
  simp [NodeKind.endedRule?]

theorem strayCount_other (hb : bracket? graph e = none) :
    strayCount graph rule (e :: inside) = strayCount graph rule inside := by
  rw [strayCount, strayEnds_other hb, strayCount]

/-- Where the instance that starts at an element has ended, its own end is the one that
is not counted any more. -/
theorem WellNested.strayCount_start (h : p.WellNested graph)
    (hpath : p.toList = before ++ start :: inside)
    (hstart : graph.kind start.node = .ruleStart rule' ident stop) (hcloses : Closes graph inside) :
    strayCount graph rule inside =
      strayCount graph rule (start :: inside) + if rule' = rule then 1 else 0 := by
  obtain ⟨n, ns, hstray⟩ := List.exists_cons_of_ne_nil (closes_iff.mp hcloses)
  have hend := h.kind_of_strayEnds hpath hstart hstray
  rw [strayCount, strayCount, strayEnds_start (by rw [bracket?, hstart]), hstray, List.tail_cons,
    List.countP_cons, hend]
  simp [NodeKind.endedRule?]

theorem strayCount_of_open (hopen : ¬Closes graph inside) : strayCount graph rule inside = 0 := by
  rw [strayCount, not_not.mp (mt closes_iff.mpr hopen), List.countP_nil]

theorem strayCount_start_of_open (hb : bracket? graph start = some U)
    (hopen : ¬Closes graph inside) : strayCount graph rule (start :: inside) = 0 := by
  rw [strayCount, strayEnds_start hb, not_not.mp (mt closes_iff.mpr hopen), List.tail_nil,
    List.countP_nil]

/-- The counter of the scan is the number of ends that were passed and whose starts were not. -/
theorem WellNested.revisitsIn_iff (h : p.WellNested graph)
    (hn : (graph.kind node).startedRule? = some rule) :
    ∀ {els inside : List PathElement}, p.elements = inside.reverse ++ els →
      (revisitsIn graph node (strayCount graph rule inside) els = true ↔
        (∃ e ∈ els.takeWhile (·.token.isNone), e.node = node) ∨
          Reopens graph rule inside (els.takeWhile (·.token.isNone)))
  | [], inside, _ => by simp [revisitsIn, Reopens]
  | ⟨m, some t⟩ :: els, inside, _ => by simp [revisitsIn, Reopens]
  | ⟨m, none⟩ :: els, inside, hels => by
    have hpath : p.toList = els.reverse ++ ⟨m, none⟩ :: inside := by
      rw [toList, hels]
      simp
    have hbehind : p.elements = (⟨m, none⟩ :: inside).reverse ++ els := by
      rw [hels]
      simp
    have ih := h.revisitsIn_iff hn hbehind
    rw [revisitsIn_cons hn rfl, List.takeWhile_cons_of_pos rfl, List.exists_mem_cons_iff,
      reopens_cons]
    by_cases hm : m = node
    · simp [hm]
    · simp only [hm, if_false, false_or]
      cases hk : graph.kind m with
      | ruleEnd rule' ident =>
        rw [strayCount_end hk] at ih
        simp only [NodeKind.endedRule?, NodeKind.startedRule?, Option.some.injEq, reduceCtorEq,
          if_false, false_and, false_or]
        split
        · next hrule => rwa [if_pos hrule] at ih
        · next hrule => rwa [if_neg hrule] at ih
      | ruleStart rule' ident stop =>
        simp only [NodeKind.endedRule?, NodeKind.startedRule?, Option.some.injEq, reduceCtorEq,
          if_false]
        by_cases hcloses : Closes graph inside
        · rw [h.strayCount_start hpath hk hcloses]
          simp only [hcloses, not_true, and_false, false_or]
          split
          · exact ih
          · exact ih
        · rw [strayCount_start_of_open (by rw [bracket?, hk]) hcloses] at ih
          rw [strayCount_of_open hcloses]
          split
          · next hrule => simp [hrule, hcloses]
          · next hrule => simpa [hrule] using ih
      | slot | junction | gate | switch =>
        rw [strayCount_other (by rw [bracket?, hk])] at ih
        simpa [NodeKind.endedRule?, NodeKind.startedRule?] using ih

/-- Stepping onto a node would return to it, or reenter a rule, just where the node occurs since the
last token or starts a rule of which some instance has started since then and is open at the tip. -/
theorem revisits_iff (h : p.WellNested graph) (node : NodeId) :
    p.revisits graph node = true ↔ (∃ e ∈ p.sinceToken, e.node = node) ∨
      ∃ rule before e inside, (graph.kind node).startedRule? = some rule ∧
        p.sinceToken = before ++ e :: inside ∧ (graph.kind e.node).startedRule? = some rule ∧
        ¬Closes graph inside := by
  have hmem : (∃ e ∈ p.sinceToken, e.node = node) ↔
      ∃ e ∈ p.elements.takeWhile (·.token.isNone), e.node = node := by
    simp only [sinceToken, List.mem_reverse]
  rw [hmem, revisits]
  cases hn : (graph.kind node).startedRule? with
  | none =>
    rw [revisitsIn_iff_of_none hn]
    simp
  | some rule =>
    have hels : p.elements = [].reverse ++ p.elements := rfl
    have hscan := h.revisitsIn_iff hn hels
    rw [show strayCount graph rule [] = 0 from rfl] at hscan
    rw [hscan]
    refine or_congr_right ?_
    constructor
    · rintro ⟨behind, e, front, hels, hrule, hopen⟩
      rw [List.append_nil] at hopen
      exact ⟨rule, front.reverse, e, behind.reverse, rfl, by rw [sinceToken, hels]; simp, hrule,
        hopen⟩
    · rintro ⟨rule', before, e, inside, hrule', hels, hrule, hopen⟩
      obtain rfl := Option.some.inj hrule'
      refine ⟨inside.reverse, e, before.reverse, ?_, hrule, by simpa using hopen⟩
      rw [← List.reverse_reverse (p.elements.takeWhile _), ← sinceToken, hels]
      simp

end Path

namespace Sample.Pair

def word : TokenType := ⟨1, .keyword "a" true⟩

/-- Two instances of one rule, each with a word that may be missing. -/
def grammar : Grammar :=
  { types := ⟨[word]⟩
    rules := [
      { name := "Word", expand := some fun _ => .ofPiece (.optional (.token word)) },
      { name := "pair", expand := some fun _ => .ofPiece (.sequence [.rule 0, .rule 0]) }]
    root := 1, ident := none }

theorem endsApart_grammar : grammar.EndsApart :=
  Grammar.endsApart_of_atSockets (by
    simp [grammar, Body.ofPiece, Piece.optional, Piece.token, Piece.rule])

/-- Since the token, which the first instance took, that instance has ended, and the
second has started and ended.  So the start of the first could be stepped onto, and that
of the second could not. -/
theorem revisits_iff_ofTwo :
    ∃ s, (Parser.ofGrammar grammar).searchWithin 100 "a".toList none = some (.ok s) ∧
    s.path.WellNested s.graph ∧ Path.brackets s.graph s.path.sinceToken = [D, U, D, D] ∧
    ((s.graph.kind 5).startedRule?, (s.graph.kind 7).startedRule?) = (some 0, some 0) ∧
    s.path.revisits s.graph 5 = false ∧
    ¬((∃ e ∈ s.path.sinceToken, e.node = 5) ∨
      ∃ rule before e inside, (s.graph.kind 5).startedRule? = some rule ∧
      s.path.sinceToken = before ++ e :: inside ∧ (s.graph.kind e.node).startedRule? = some rule ∧
        ¬Path.Closes s.graph inside) ∧
    s.path.revisits s.graph 7 = true ∧
    ((∃ e ∈ s.path.sinceToken, e.node = 7) ∨
      ∃ rule before e inside, (s.graph.kind 7).startedRule? = some rule ∧
      s.path.sinceToken = before ++ e :: inside ∧ (s.graph.kind e.node).startedRule? = some rule ∧
        ¬Path.Closes s.graph inside) := by
  have hok :
      ((Parser.ofGrammar grammar).searchWithin 100 "a".toList none).any (·.toOption.any fun s =>
      Path.brackets s.graph s.path.sinceToken == [D, U, D, D] &&
        (((s.graph.kind 5).startedRule?, (s.graph.kind 7).startedRule?) == (some 0, some 0) &&
          (!s.path.revisits s.graph 5 && s.path.revisits s.graph 7))) = true := by decide +kernel
  obtain ⟨s, hsearch, hs⟩ := Parser.exists_ok_of_any hok
  simp only [Bool.and_eq_true, beq_iff_eq, Bool.not_eq_true'] at hs
  obtain ⟨hstretch, hstarts, hfirst, hsecond⟩ := hs
  obtain ⟨m, hm, hstop⟩ := Parser.stops_of_searchWithin hsearch
  have hnested := hm.wellNested_of_stop endsApart_grammar hstop
  refine ⟨s, hsearch, hnested, hstretch, hstarts, hfirst, ?_, hsecond,
    (Path.revisits_iff hnested 7).mp hsecond⟩
  rw [← Path.revisits_iff hnested 5, hfirst]
  exact Bool.false_ne_true

end Sample.Pair

end GrammarGraph
