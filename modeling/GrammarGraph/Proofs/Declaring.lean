import GrammarGraph.Proofs.Cuts
import GrammarGraph.Definition.Building
import GrammarGraph.Lexicon

/-!
# What the registry declares

The registry stores the text of a keyword in upper case if case does not count
(`TokenKind.Declared`), and keeps a pattern only if it can be read (`TokenKind.IsRead`).  Whoever
reads a pattern numbers its groups from 1 on, so a match has no group that the pattern does not have
(`Pattern.group?_of_ofText?`).  From this follows what the token of a separator says:

* `TokenType.text_eq_marker_iff`: it says what the separator cuts out of a text, unless a pattern
  has one group and matches more than that.
-/

namespace GrammarGraph

/-! ## Declared kinds -/

/-- A kind as the registry makes it. -/
inductive TokenKind.Declared : TokenKind → Prop
  | word {text : String} {p : Pattern} {allows : String → Bool} : Declared (.word text p allows)
  | keyword {text : String} : Declared (.keyword text true)
  | keywordAnyCase {text : String} : Declared (.keyword (Text.upper text) false)
  | literal : Declared .literal
  | leading {marker : String} : Declared (.leading marker)
  | trailing {marker : String} : Declared (.trailing marker)
  | separator {marker : String} {tight : Bool} : Declared (.separator marker tight)
  | patternSeparator {text : String} {p : Pattern} : Declared (.patternSeparator text p)

/-- The pattern of the kind, if it has one, is the one that its text is read as. -/
def TokenKind.IsRead : TokenKind → Prop
  | .word text p _ => Pattern.ofText? (Registry.wholeText text) = some p
  | .patternSeparator text p => Pattern.ofText? text = some p
  | _ => True

namespace Registry

/-- All types are as the registry makes them, and their patterns are those that were read. -/
def Declares (r : Registry) : Prop := ∀ t ∈ r.types, t.kind.Declared ∧ t.kind.IsRead

variable {r : Registry} {out : TokenType × Registry}

theorem declares_empty : Declares {} := nofun

theorem Declares.add (h : r.Declares) {kind : TokenKind} (hkind : kind.Declared)
    (hread : kind.IsRead) : (r.add kind).2.Declares := by
  intro t ht
  rcases List.mem_append.mp ht with ht | ht
  · exact h t ht
  · obtain rfl := List.mem_singleton.mp ht
    exact ⟨hkind, hread⟩

/-- A pattern is declared only if it can be read. -/
theorem Declares.of_readPattern (h : r.Declares) {text : String} {kind : Pattern → TokenKind}
    (hkind : ∀ p, Pattern.ofText? text = some p → (kind p).Declared ∧ (kind p).IsRead)
    (hadd : ((readPattern text).map fun p => r.add (kind p)) = .ok out) : out.2.Declares := by
  unfold readPattern at hadd
  split at hadd
  · next p hp =>
    obtain rfl := Except.ok.inj hadd
    exact h.add (hkind p hp).1 (hkind p hp).2
  · exact absurd hadd nofun

theorem Declares.addWord (h : r.Declares) {pattern : String} {allows : String → Bool}
    (hadd : r.addWord pattern allows = .ok out) : out.2.Declares :=
  h.of_readPattern (fun _ hread => ⟨.word, hread⟩) hadd

theorem Declares.addPatternSeparator (h : r.Declares) {text : String}
    (hadd : r.addPatternSeparator text = .ok out) : out.2.Declares :=
  h.of_readPattern (fun _ hread => ⟨.patternSeparator, hread⟩) hadd

theorem Declares.addLiteral (h : r.Declares) : r.addLiteral.2.Declares := by
  rw [Registry.addLiteral]
  split
  · exact h
  · exact h.add .literal trivial

end Registry

/-- The type of a declaration is declared. -/
theorem Definition.declares_of_declare {r : Registry} {out : TokenType × Registry} (h : r.Declares)
    {form : TokenForm} (hdeclare : declare r form = .ok out) : out.2.Declares := by
  unfold declare at hdeclare
  split at hdeclare
  case h_3 => exact h.addWord hdeclare
  case h_6 => exact h.addPatternSeparator hdeclare
  all_goals obtain rfl := Except.ok.inj hdeclare
  case h_1 => exact h.add .keyword trivial
  case h_2 => exact h.add .keywordAnyCase trivial
  case h_4 => exact h.add .leading trivial
  case h_5 => exact h.add .trailing trivial
  case h_7 => exact h.add .separator trivial
  case h_8 => exact h.addLiteral

namespace Lexicon

theorem declares_of_mem_steps {l : Lexicon} {step : Step} (hstep : step ∈ l.steps) {r : Registry}
    {out : TokenType × Registry} (h : r.Declares) (hout : step r = .ok out) : out.2.Declares := by
  simp only [steps, List.mem_append, List.mem_map] at hstep
  rcases hstep with ((((hliteral | ⟨pattern, -, rfl⟩) | ⟨entry, -, rfl⟩) | ⟨entry, -, rfl⟩) |
    ⟨marker, -, rfl⟩) | ⟨marker, -, rfl⟩
  · split at hliteral
    · obtain rfl := List.mem_singleton.mp hliteral
      obtain rfl := Except.ok.inj hout
      exact h.addLiteral
    · exact absurd hliteral List.not_mem_nil
  · exact h.addWord hout
  · unfold keywordStep at hout
    split at hout <;> obtain rfl := Except.ok.inj hout
    · exact h.add .keyword trivial
    · exact h.add .keyword trivial
    · exact h.add .keywordAnyCase trivial
  · unfold separatorStep at hout
    split at hout
    · obtain rfl := Except.ok.inj hout
      exact h.add .separator trivial
    · obtain rfl := Except.ok.inj hout
      exact h.add .separator trivial
    · exact h.addPatternSeparator hout
  · obtain rfl := Except.ok.inj hout
    exact h.add .leading trivial
  · obtain rfl := Except.ok.inj hout
    exact h.add .trailing trivial

/-- The types of a lexicon are declared, also those in front of a malformed pattern. -/
theorem declares_register (l : Lexicon) {r : Registry} (h : r.Declares) :
    (l.register r).1.Declares := by
  have hrun : ∀ (todo : List Step) (r : Registry), (∀ step ∈ todo, step ∈ l.steps) → r.Declares →
      (run todo r).1.Declares := by
    intro todo
    induction todo with
    | nil => exact fun _ _ h => h
    | cons step rest ih =>
      intro r hsteps h
      rw [run]
      split
      · next hout =>
        exact ih _ (fun s hs => hsteps s (List.mem_cons_of_mem _ hs))
          (declares_of_mem_steps (hsteps step List.mem_cons_self) h hout)
      · exact h
  exact hrun l.steps r (fun _ => id) h

end Lexicon

/-! ## Groups -/

namespace Regex

/-- The numbers of the groups of an expression. -/
def indices : Regex → List Nat
  | empty | set _ | look _ => []
  | seq r s | alt r s => indices r ++ indices s
  | group i r => i :: indices r
  | opt _ r | plus _ r | exactly _ r | upTo _ _ r => indices r

variable {n : Nat} {r s : Regex} {cur cur' : Cursor} {gs gs' : Groups}

/-- The groups that a walk closes are those of the expression. -/
theorem Walks.indices (h : Walks r cur gs cur' gs') :
    ∃ closed, gs' = closed ++ gs ∧ ∀ g ∈ closed, g.1 ∈ r.indices := by
  induction h with
  | empty | set | look | skipped | never | enough => exact ⟨[], rfl, nofun⟩
  | taken _ ih | once _ ih => exact ih
  | left _ ih =>
    obtain ⟨closed, rfl, hmem⟩ := ih
    exact ⟨closed, rfl, fun g hg => List.mem_append_left _ (hmem g hg)⟩
  | right _ ih =>
    obtain ⟨closed, rfl, hmem⟩ := ih
    exact ⟨closed, rfl, fun g hg => List.mem_append_right _ (hmem g hg)⟩
  | @group i r cur cur' gs gs' _ ih =>
    obtain ⟨closed, rfl, hmem⟩ := ih
    refine ⟨(i, cur.pos, cur'.pos) :: closed, rfl, ?_⟩
    rintro g (_ | ⟨_, hg⟩)
    · exact List.mem_cons_self
    · exact List.mem_cons_of_mem _ (hmem g hg)
  | seq _ _ ih₁ ih₂ =>
    obtain ⟨closed, rfl, hmem⟩ := ih₁
    obtain ⟨closed', rfl, hmem'⟩ := ih₂
    refine ⟨closed' ++ closed, (List.append_assoc _ _ _).symm, fun g hg => ?_⟩
    rcases List.mem_append.mp hg with hg | hg
    · exact List.mem_append_right _ (hmem' g hg)
    · exact List.mem_append_left _ (hmem g hg)
  | again _ _ ih₁ ih₂ | times _ _ ih₁ ih₂ | oneMore _ _ ih₁ ih₂ =>
    obtain ⟨closed, rfl, hmem⟩ := ih₁
    obtain ⟨closed', rfl, hmem'⟩ := ih₂
    refine ⟨closed' ++ closed, (List.append_assoc _ _ _).symm, fun g hg => ?_⟩
    rcases List.mem_append.mp hg with hg | hg
    · exact hmem' g hg
    · exact hmem g hg

/-- No group has a number above the given one. -/
def NumberedTo (n : Nat) (r : Regex) : Prop := ∀ i ∈ r.indices, i ≤ n

namespace NumberedTo

theorem mono (h : r.NumberedTo n) {m : Nat} (hle : n ≤ m) : r.NumberedTo m :=
  fun i hi => Nat.le_trans (h i hi) hle

theorem seq (hr : r.NumberedTo n) (hs : s.NumberedTo n) :
    (Regex.seq r s).NumberedTo n := fun i hi =>
  (List.mem_append.mp hi).elim (hr i) (hs i)

theorem alt (hr : r.NumberedTo n) (hs : s.NumberedTo n) :
    (Regex.alt r s).NumberedTo n := fun i hi =>
  (List.mem_append.mp hi).elim (hr i) (hs i)

theorem group {i : Nat} (hi : i ≤ n) (hr : r.NumberedTo n) : (Regex.group i r).NumberedTo n := by
  rintro j (_ | ⟨_, hj⟩)
  · exact hi
  · exact hr j hj

theorem ofList {rs : List Regex} (h : ∀ r ∈ rs, r.NumberedTo n) :
    (Regex.ofList rs).NumberedTo n := by
  induction rs with
  | nil => exact nofun
  | cons r rs ih =>
    exact (h r List.mem_cons_self).seq (ih fun s hs => h s (List.mem_cons_of_mem _ hs))

theorem atLeast (hr : r.NumberedTo n) (greedy : Bool) (count : Nat) :
    (Regex.atLeast greedy count r).NumberedTo n := by
  cases count with
  | zero => exact hr
  | succ count => exact seq hr hr

end NumberedTo

end Regex

namespace Pattern

open Regex

/-- What has been read of an open group has no number above the given one. -/
structure Frame.NumberedTo (n : Nat) (f : Frame) : Prop where
  index : ∀ i ∈ f.index, i ≤ n
  items : ∀ r, some r ∈ f.items → r.NumberedTo n
  branches : ∀ r ∈ f.branches, r.NumberedTo n

theorem Frame.NumberedTo.mono {n m : Nat} {f : Frame} (h : f.NumberedTo n) (hle : n ≤ m) :
    f.NumberedTo m where
  index i hi := Nat.le_trans (h.index i hi) hle
  items r hr := (h.items r hr).mono hle
  branches r hr := (h.branches r hr).mono hle

theorem Frame.numberedTo_empty (n : Nat) (f : Flags) : Frame.NumberedTo n ⟨none, f, [], []⟩ where
  index _ hi := absurd hi (Option.not_mem_none _)
  items _ hr := absurd hr List.not_mem_nil
  branches _ hr := absurd hr List.not_mem_nil

namespace Reader

variable {st st' : Reader} {rest cs : List Char} {r : Regex}

/-- What has been read of the innermost group. -/
def level (st : Reader) : Frame := ⟨none, st.flags, st.items, st.branches⟩

/-- All groups have been counted. -/
structure Numbered (st : Reader) : Prop where
  level : st.level.NumberedTo st.groups
  frames : ∀ f ∈ st.frames, f.NumberedTo st.groups

theorem Numbered.current (h : st.Numbered) : st.current.NumberedTo st.groups := by
  have hfold : ∀ (branches : List Regex) (r : Regex), (∀ r ∈ branches, r.NumberedTo st.groups) →
      r.NumberedTo st.groups →
      (branches.foldl (fun r s => Regex.alt s r) r).NumberedTo st.groups := by
    intro branches
    induction branches with
    | nil => exact fun _ _ hr => hr
    | cons s branches ih =>
      exact fun r hbranches hr => ih _ (fun t ht => hbranches t (List.mem_cons_of_mem _ ht))
        ((hbranches s List.mem_cons_self).alt hr)
  refine hfold _ _ h.level.branches (.ofList fun r hr => ?_)
  obtain ⟨item, hitem, rfl⟩ := List.mem_filterMap.mp hr
  exact h.level.items r (List.mem_reverse.mp hitem)

theorem Numbered.push (h : st.Numbered) (hr : r.NumberedTo st.groups) (rest : List Char) :
    (st.push r rest).Numbered where
  level := ⟨nofun, fun s hs => (List.mem_cons.mp hs).elim
    (fun heq => Option.some.inj heq ▸ hr) (h.level.items s), h.level.branches⟩
  frames := h.frames

theorem Numbered.repeatLast (h : st.Numbered) {wrap : Bool → Regex → Regex}
    (hst : st.repeatLast wrap rest = some st')
    (hwrap : ∀ greedy r, r.NumberedTo st.groups → (wrap greedy r).NumberedTo st.groups) :
    st'.Numbered := by
  unfold Reader.repeatLast at hst
  split at hst
  · next r items hitems =>
    obtain rfl := Option.some.inj hst
    have hlevel : ∀ s, some s ∈ some r :: items → s.NumberedTo st.groups := fun s hs =>
      h.level.items s (hitems.symm ▸ hs : some s ∈ st.items)
    refine ⟨⟨nofun, fun s hs => ?_, h.level.branches⟩, h.frames⟩
    rcases List.mem_cons.mp hs with heq | hs
    · exact Option.some.inj heq ▸ hwrap _ r (hlevel r List.mem_cons_self)
    · exact hlevel s (List.mem_cons_of_mem _ hs)
  · exact absurd hst nofun

theorem Numbered.openGroup (h : st.Numbered) {index : Option Nat}
    (hindex : ∀ i ∈ index, i ≤ st.groups) (inner : Flags) (rest : List Char) :
    (st.openGroup index inner rest).Numbered where
  level := Frame.numberedTo_empty _ _
  frames f hf := by
    rcases List.mem_cons.mp hf with rfl | hf
    · exact ⟨hindex, h.level.items, h.level.branches⟩
    · exact h.frames f hf

/-- A new group takes the next number. -/
theorem Numbered.openNext (h : st.Numbered) (names : List String) (inner : Flags)
    (rest : List Char) : (Reader.openGroup { st with groups := st.groups + 1, names }
      (some (st.groups + 1)) inner rest).Numbered := by
  have hle : st.groups ≤ st.groups + 1 := Nat.le_succ _
  have hnext : Numbered { st with groups := st.groups + 1, names } :=
    ⟨h.level.mono hle, fun f hf => (h.frames f hf).mono hle⟩
  refine hnext.openGroup ?_ inner rest
  rintro i ⟨⟩
  exact Nat.le_refl _

theorem Numbered.openNamed (h : st.Numbered) (hst : st.openNamed cs = some st') : st'.Numbered := by
  obtain ⟨⟨name, rest⟩, -, hst⟩ := Option.bind_eq_some_iff.mp hst
  dsimp only at hst
  split at hst
  · exact absurd hst nofun
  · obtain rfl := Option.some.inj hst
    exact h.openNext _ _ _

theorem Numbered.readGroup (h : st.Numbered) (hst : st.readGroup cs = some st') : st'.Numbered := by
  unfold Reader.readGroup at hst
  split at hst
  iterate 4 exact absurd hst nofun
  · exact h.openNamed hst
  · exact h.openNamed hst
  · obtain ⟨⟨flags, seen, rest⟩, -, hst⟩ := Option.bind_eq_some_iff.mp hst
    dsimp only at hst
    split at hst
    · obtain rfl := Option.some.inj hst
      exact h.openGroup (fun _ hi => absurd hi (Option.not_mem_none _)) _ _
    · split at hst
      · exact absurd hst nofun
      · obtain rfl := Option.some.inj hst
        exact ⟨⟨nofun, fun r hr => h.level.items r ((List.mem_cons.mp hr).resolve_left nofun),
            h.level.branches⟩, h.frames⟩
    · exact absurd hst nofun
  · obtain rfl := Option.some.inj hst
    exact h.openNext _ _ _

theorem Numbered.closeGroup (h : st.Numbered) (hst : st.closeGroup cs = some st') :
    st'.Numbered := by
  unfold Reader.closeGroup at hst
  split at hst
  · exact absurd hst nofun
  · next frame frames hframes =>
    obtain rfl := Option.some.inj hst
    have hframe : frame.NumberedTo st.groups := h.frames frame (hframes ▸ List.mem_cons_self)
    refine ⟨⟨nofun, fun r hr => ?_, hframe.branches⟩,
      fun f hf => h.frames f (hframes ▸ List.mem_cons_of_mem _ hf)⟩
    rcases List.mem_cons.mp hr with heq | hr
    · obtain rfl := Option.some.inj heq
      split
      · next i hi => exact .group (hframe.index i hi) h.current
      · exact h.current
    · exact hframe.items r hr

/-- Each item that is read keeps the groups counted. -/
theorem Numbered.step (h : st.Numbered) {c : Char} (hst : st.step c cs = some st') :
    st'.Numbered := by
  have hset (s : CharSet) : (Regex.set s).NumberedTo st.groups :=
    fun _ hi => absurd hi List.not_mem_nil
  have hlook (a : Assertion) : (Regex.look a).NumberedTo st.groups :=
    fun _ hi => absurd hi List.not_mem_nil
  have hatom (a : Atom) : (ofAtom st.flags a).NumberedTo st.groups := by
    cases a with
    | look a => exact hlook a
    | _ => exact hset _
  unfold Reader.step at hst
  split at hst
  case h_1 => exact h.readGroup hst
  case h_2 => exact h.closeGroup hst
  case h_3 =>
    obtain rfl := Option.some.inj hst
    refine ⟨⟨nofun, fun _ hr => absurd hr List.not_mem_nil, fun r hr => ?_⟩, h.frames⟩
    rcases List.mem_cons.mp hr with rfl | hr
    · refine .ofList fun r hr => ?_
      obtain ⟨item, hitem, rfl⟩ := List.mem_filterMap.mp hr
      exact h.level.items r (List.mem_reverse.mp hitem)
    · exact h.level.branches r hr
  case h_4 =>
    obtain ⟨⟨s, rest⟩, -, rfl⟩ := Option.map_eq_some_iff.mp hst
    exact h.push (hset s) rest
  case h_5 | h_6 | h_7 => exact h.repeatLast hst fun _ _ hr => hr
  case h_8 =>
    obtain ⟨⟨⟨least, most⟩, rest⟩, -, hst⟩ := Option.bind_eq_some_iff.mp hst
    refine h.repeatLast hst fun greedy r hr => ?_
    cases most with
    | none => exact hr.atLeast greedy least
    | some most => exact hr.seq hr
  case h_9 =>
    obtain ⟨⟨a, rest⟩, -, rfl⟩ := Option.map_eq_some_iff.mp hst
    exact h.push (hatom a) rest
  case h_11 | h_12 =>
    obtain rfl := Option.some.inj hst
    exact h.push (hlook _) _
  all_goals
    obtain rfl := Option.some.inj hst
    exact h.push (hatom _) _

theorem Numbered.finish {fuel : Nat} (h : st.Numbered) (hst : Reader.finish fuel st = some st') :
    st'.Numbered := by
  induction fuel generalizing st with
  | zero => exact absurd hst nofun
  | succ fuel ih =>
    rw [Reader.finish] at hst
    split at hst
    · split at hst
      · exact Option.some.inj hst ▸ h
      · exact absurd hst nofun
    · obtain ⟨next, hnext, hst⟩ := Option.bind_eq_some_iff.mp hst
      exact ih (h.step hnext) hst

end Reader

variable {p : Pattern} {text : List Char} {m : Match}

/-- The reader counts the groups of a pattern. -/
theorem numberedTo_of_ofText? {name : String} (h : ofText? name = some p) :
    p.regex.NumberedTo p.groups := by
  obtain ⟨st, hst, h⟩ := Option.bind_eq_some_iff.mp h
  have hnumbered : st.Numbered :=
    Reader.Numbered.finish ⟨Frame.numberedTo_empty _ _, fun _ hf => absurd hf List.not_mem_nil⟩ hst
  dsimp only at h
  split at h
  · exact Option.some.inj h ▸ hnumbered.current
  · exact absurd h nofun

/-- A match has no groups but those of its pattern. -/
theorem group?_of_ofText? {name : String} (h : ofText? name = some p) (hfind : p.find text = some m)
    {i : Nat} (hi : p.groups < i) : m.group? i = none := by
  obtain ⟨cur, cur', gs, -, hwalks, rfl⟩ := exists_walks_of_find hfind
  obtain ⟨closed, rfl, hmem⟩ := hwalks.indices
  rw [List.append_nil, Match.group?, if_neg (Nat.ne_of_gt (Nat.zero_lt_of_lt hi)),
    Option.map_eq_none_iff, List.find?_eq_none]
  intro g hg heq
  have hle := numberedTo_of_ofText? h g.1 (hmem g hg)
  exact absurd (eq_of_beq heq ▸ hle) (Nat.not_le_of_lt hi)

/-- A match of a marker between two texts captures the marker. -/
theorem text?_of_find_between {marker : List Char} (h : (between marker).find text = some m) :
    m.text? text 2 = some marker := by
  obtain ⟨cur, cur', gs, hcur, hwalks, rfl⟩ := exists_walks_of_find h
  obtain ⟨rfl, hbody⟩ := hwalks.of_textStart hcur
  obtain ⟨cur₁, gs₁, hleft, hbody⟩ := hbody.of_group_seq
  obtain ⟨left, -, -, hread₁, rfl⟩ := hleft.of_plus_set
  obtain ⟨cur₂, gs₂, hmarker, hbody⟩ := hbody.of_group_seq
  obtain ⟨hread₂, rfl⟩ := hmarker.of_literal
  obtain ⟨cur₃, gs₃, hright, hbody⟩ := hbody.of_group_seq
  obtain ⟨right, -, -, hread₃, rfl⟩ := hright.of_plus_set
  obtain ⟨rfl, rfl, -⟩ := hbody.of_textEnd
  show some ((text.drop cur₁.pos).take (cur₂.pos - cur₁.pos)) = some marker
  rw [hread₁.pos_of_start, (hread₁.trans hread₂).pos_of_start, (hread₁.trans hread₂).text_of_start,
    take_drop_append]

/-- A group that says the whole match is the whole match. -/
theorem text?_eq_iff_of_find {i : Nat} {part : List Char} (hfind : p.find text = some m)
    (hpart : m.text? text i = some part) :
    m.text? text 0 = some part ↔ m.group? i = m.group? 0 := by
  refine ⟨fun hall => ?_, fun heq => by rw [Match.text?, ← heq, ← Match.text?, hpart]⟩
  obtain ⟨⟨start, stop⟩, hgroup, rfl⟩ := Option.map_eq_some_iff.mp hpart
  obtain ⟨hle, hwithin⟩ := group_le_of_find hfind hgroup
  obtain ⟨hle', hwithin'⟩ := group_le_of_find (i := 0) hfind rfl
  have hlength := congrArg List.length (Option.some.inj hall)
  simp only [List.length_take, List.length_drop] at hlength
  obtain ⟨cur, cur', gs, -, hwalks, rfl⟩ := exists_walks_of_find hfind
  rw [hgroup, Match.group?, if_pos rfl]
  rw [Match.group?] at hgroup
  split at hgroup
  · exact hgroup.symm
  · obtain ⟨g, hg, heq⟩ := Option.map_eq_some_iff.mp hgroup
    obtain ⟨closed, rfl, hinside⟩ := hwalks.groups
    rw [List.append_nil] at hg
    obtain ⟨hstart, -, hstop⟩ := hinside g (List.mem_of_find?_eq_some hg)
    rw [heq] at hstart hstop
    dsimp only at hstart hstop hlength hwithin'
    rw [show start = cur.pos by omega, show stop = cur'.pos by omega]

end Pattern

/-! ## The token of a separator -/

namespace TokenType

open Pattern

variable {t : TokenType} {text : List Char} {cut : Cut} {token : Token}

/-- The token of a separator says what the second group captures, or else the whole match. -/
theorem exists_of_create? (hkind : t.kind.isSeparator = true)
    (hcreate : t.create? text = some token) :
    ∃ p m, t.kind.strict? = some p ∧ p.find text = some m ∧
      (m.text? text 2).or (m.text? text 0) = some token.text.toList := by
  obtain ⟨haccepts, heq⟩ := Option.ite_none_right_eq_some.mp hcreate
  obtain rfl := Option.some.inj heq
  obtain ⟨p, hp, m, hm, htext⟩ : ∃ p, t.kind.strict? = some p ∧ ∃ m, p.find text = some m ∧
      t.kind.tokenText text =
        ((m.text? text 2).or (m.text? text 0)).getD (t.kind.marker?.getD "").toList := by
    cases hk : t.kind with
    | separator marker tight =>
      rw [hk] at haccepts
      obtain ⟨m, hm⟩ := Option.isSome_iff_exists.mp haccepts
      exact ⟨_, rfl, m, hm, by
        simp only [TokenKind.tokenText, TokenKind.strict?, Option.bind_some, hm]; rfl⟩
    | patternSeparator name p =>
      rw [hk] at haccepts
      obtain ⟨m, hm⟩ := Option.isSome_iff_exists.mp haccepts
      exact ⟨p, rfl, m, hm, by
        simp only [TokenKind.tokenText, TokenKind.strict?, Option.bind_some, hm]; rfl⟩
    | _ => rw [hk] at hkind; exact absurd hkind nofun
  refine ⟨p, m, hp, hm, ?_⟩
  rw [String.toList_ofList, htext]
  cases m.text? text 2 <;> rfl

/-- What a separator cuts out is the whole match, the one group, or the middle one of three. -/
theorem exists_of_cut? (hcut : t.kind.cut? text = some cut) :
    ∃ p m, t.kind.split? = some p ∧ p.find text = some m ∧
      (p.groups ≤ 1 ∧ m.text? text p.groups = some cut.marker ∨ p.groups = 3 ∧
        m.text? text 2 = some cut.marker) := by
  obtain ⟨p, hp, hcut⟩ := Option.bind_eq_some_iff.mp hcut
  obtain ⟨m, hm, hcut⟩ := Option.bind_eq_some_iff.mp hcut
  have hcut := (Option.filter_eq_some_iff.mp hcut).1
  refine ⟨p, m, hp, hm, ?_⟩
  split at hcut
  · next hgroups =>
    obtain ⟨offsets, hgroup, rfl⟩ := Option.map_eq_some_iff.mp hcut
    exact .inl ⟨Nat.le_one_iff_eq_zero_or_eq_one.mpr hgroups, by rw [Match.text?, hgroup]; rfl⟩
  · split at hcut
    · next hgroups =>
      obtain ⟨marker, hmarker, rfl⟩ := Option.map_eq_some_iff.mp hcut
      exact .inr ⟨hgroups, hmarker⟩
    · exact absurd hcut nofun

/-- The strict pattern of a marker captures the marker. -/
theorem captures_of_strict? {p : Pattern} {m : Match} {marker : String} {tight : Bool}
    (hp : (TokenKind.separator marker tight).strict? = some p) (hm : p.find text = some m) :
    p.groups = 3 ∧ m.text? text 2 = some marker.toList := by
  obtain rfl := Option.some.inj hp
  cases tight with
  | false =>
    obtain ⟨-, -, -, -, hmiddle, -⟩ := exists_of_find_splitting hm
    exact ⟨rfl, hmiddle⟩
  | true => exact ⟨rfl, text?_of_find_between hm⟩

/-- What a token says is the marker that is cut out, unless the marker is the one group and the
match is more than that. -/
theorem said_eq_iff_of_find {p : Pattern} {m : Match} {said marker : List Char}
    (hm : p.find text = some m) (htwo : p.groups ≤ 1 → m.text? text 2 = none)
    (hsaid : (m.text? text 2).or (m.text? text 0) = some said)
    (hmarker : p.groups ≤ 1 ∧ m.text? text p.groups = some marker ∨
      p.groups = 3 ∧ m.text? text 2 = some marker) :
    m.text? text (if p.groups = 3 then 2 else 0) = some said ∧
    (p.groups = 1 → m.text? text 1 = some marker) ∧
    (said = marker ↔ (p.groups = 1 → m.group? 1 = m.group? 0)) := by
  rcases hmarker with ⟨hle, hmarker⟩ | ⟨hthree, hmarker⟩
  · rw [htwo hle, Option.none_or] at hsaid
    have hsame : said = marker ↔ m.text? text 0 = some marker := by rw [hsaid, Option.some_inj]
    rw [if_neg (by omega), hsame]
    rcases Nat.le_one_iff_eq_zero_or_eq_one.mp hle with hgroups | hgroups
    · rw [hgroups] at hmarker ⊢
      exact ⟨hsaid, nofun, fun _ => nofun, fun _ => hmarker⟩
    · rw [hgroups] at hmarker ⊢
      rw [text?_eq_iff_of_find hm hmarker]
      exact ⟨hsaid, fun _ => hmarker, fun h _ => h, fun h => h rfl⟩
  · rw [hmarker, Option.some_or, Option.some_inj] at hsaid
    rw [if_pos hthree, hthree, hmarker, hsaid]
    exact ⟨rfl, nofun, fun _ => nofun, fun _ => rfl⟩

/-- What a separator cuts out of a text and what its token says are the same, unless the pattern has
one group and matches more than that group.  The token then says the whole match. -/
theorem text_eq_marker_iff (hread : t.kind.IsRead) (hcut : t.kind.cut? text = some cut)
    (hcreate : t.create? text = some token) :
    ∃ p m, t.kind.strict? = some p ∧ p.find text = some m ∧
      m.text? text (if p.groups = 3 then 2 else 0) = some token.text.toList ∧
      (p.groups = 1 → m.text? text 1 = some cut.marker) ∧
      (token.text = .ofList cut.marker ↔ (p.groups = 1 → m.group? 1 = m.group? 0)) := by
  have hsep : t.kind.isSeparator = true := by
    cases hk : t.kind with
    | separator | patternSeparator => rfl
    | _ => rw [hk] at hcut; exact absurd hcut nofun
  obtain ⟨p, m, hp, hm, htoken⟩ := exists_of_create? hsep hcreate
  refine ⟨p, m, hp, hm, ?_⟩
  have hiff : token.text = .ofList cut.marker ↔ token.text.toList = cut.marker := by
    rw [← String.toList_inj, String.toList_ofList]
  rw [hiff]
  cases hk : t.kind with
  | separator marker tight =>
    rw [hk] at hp hcut
    obtain ⟨hmarker, -⟩ := TokenKind.eq_of_cut?_separator hcut
    obtain ⟨hthree, hcaptured⟩ := captures_of_strict? hp hm
    rw [← hmarker] at hcaptured
    exact said_eq_iff_of_find hm (fun hle => absurd hle (by omega)) htoken
      (.inr ⟨hthree, hcaptured⟩)
  | patternSeparator name q =>
    -- what is cut and what is said are matched by the same pattern
    obtain ⟨p', m', hp', hm', hmarker⟩ := exists_of_cut? hcut
    rw [hk] at hp hp' hread
    obtain rfl := Option.some.inj hp
    obtain rfl := Option.some.inj hp'
    obtain rfl := Option.some.inj (hm.symm.trans hm')
    refine said_eq_iff_of_find hm (fun hle => ?_) htoken hmarker
    rw [Match.text?, group?_of_ofText? hread hm (Nat.lt_succ_of_le hle), Option.map_none]
  | _ => rw [hk] at hsep; exact absurd hsep nofun

end TokenType

namespace Sample

/-- A separator given by a pattern. -/
def separating (pattern : String) (valid : (Pattern.ofText? pattern).isSome = true) : TokenType :=
  ⟨1, .patternSeparator pattern ((Pattern.ofText? pattern).get valid)⟩

/-- The group is all that the pattern matches. -/
def dashRuns : TokenType := separating "(-+)" (by decide)

/-- The group is only a part of what the pattern matches. -/
def marked : TokenType := separating "a(b)" (by decide)

theorem isRead_separating (pattern : String) (valid : (Pattern.ofText? pattern).isSome = true) :
    (separating pattern valid).kind.IsRead :=
  (Option.some_get valid).symm

theorem text_eq_marker_iff_dashRuns : dashRuns.kind.IsRead ∧
    ∃ cut token, dashRuns.kind.cut? "x--y".toList = some cut ∧
    dashRuns.create? "x--y".toList = some token ∧ cut.marker = "--".toList ∧
      ∃ p m, dashRuns.kind.strict? = some p ∧ p.find "x--y".toList = some m ∧
        m.text? "x--y".toList (if p.groups = 3 then 2 else 0) = some token.text.toList ∧
        (p.groups = 1 → m.text? "x--y".toList 1 = some cut.marker) ∧
        (token.text = .ofList cut.marker ↔ (p.groups = 1 → m.group? 1 = m.group? 0)) :=
  have hread := isRead_separating "(-+)" (by decide)
  have hcut : dashRuns.kind.cut? "x--y".toList = some ⟨['x'], ['-', '-'], ['y']⟩ := by
    decide +kernel
  have hcreate : dashRuns.create? "x--y".toList = some ⟨"--", [dashRuns], .origin, .origin⟩ := by
    rw [TokenType.create?, if_pos (by decide +kernel)]
    congr
  ⟨hread, _, _, hcut, hcreate, rfl, TokenType.text_eq_marker_iff hread hcut hcreate⟩

/-- The token says the whole match, and cut out is the group. -/
theorem marked_said_whole : marked.kind.Declared ∧ marked.kind.IsRead ∧
    marked.kind.cut? "ab".toList = some ⟨['a'], ['b'], []⟩ ∧
    (marked.create? "ab".toList).map Token.text = some "ab" ∧ "ab" ≠ String.ofList ['b'] :=
  ⟨.patternSeparator, isRead_separating "a(b)" (by decide), by decide +kernel⟩

end Sample

end GrammarGraph
