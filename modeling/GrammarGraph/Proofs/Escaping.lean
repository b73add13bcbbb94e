import GrammarGraph.Proofs.Markers

/-!
# Markers are taken literally

The pattern of a marker is put together as a text, in which every character of the marker that has a
meaning in patterns stands behind a backslash (`Pattern.escape`).  It is read as the pattern that
matches the very characters of the marker, if it is not too large (`Pattern.Denotes`).  So what is
found is the marker itself, next to text without white space, or its last occurrence in any text
(`TokenKind.marker_taken_literally`).
-/

namespace GrammarGraph

namespace Pattern

/-! ## Escaped texts -/

/-- The characters with a meaning in patterns. -/
def metaCharacters : List Char :=
  ['\\', '.', '+', '*', '?', '(', ')', '|', '[', ']', '\x7b', '\x7d', '^', '$', '#', '&', '-', '~']

/-- The text of a pattern for exactly this text. -/
def escape : List Char → List Char
  | [] => []
  | c :: cs => if c ∈ metaCharacters then '\\' :: c :: escape cs else c :: escape cs

theorem head?_escape_append (marker rest : List Char) (hrest : rest.head? ≠ some '?') :
    (escape marker ++ rest).head? ≠ some '?' := by
  cases marker with
  | nil => exact hrest
  | cons c cs =>
    rw [escape]
    split
    · exact fun h => absurd (Option.some.inj h) (by decide)
    · next hc =>
      rintro h
      obtain rfl := Option.some.inj h
      exact hc (by decide)

theorem length_le_escape (marker : List Char) : marker.length ≤ (escape marker).length := by
  induction marker with
  | nil => exact Nat.le_refl _
  | cons c cs ih =>
    rw [escape]
    split
    · exact Nat.le_succ_of_le (Nat.succ_le_succ ih)
    · exact Nat.succ_le_succ ih

namespace Reader

variable {st st' : Reader} {c : Char} {cs rest marker : List Char} {fuel : Nat}

theorem finish_cons (hverbose : st.flags.verbose = false) (hrest : st.rest = c :: cs)
    (hstep : st.step c cs = some st') : finish (fuel + 1) st = finish fuel st' := by
  rw [finish, Flags.skip, hverbose, if_neg Bool.false_ne_true, hrest]
  simp only [hstep, Option.bind_some]

theorem ofAtom_char (hcase : st.flags.ignoreCase = false) :
    ofAtom st.flags (.char c) = .char c := by
  show Regex.set (st.flags.fold _) = _
  rw [Flags.fold, hcase, if_neg Bool.false_ne_true, Regex.char]

/-- A character without a meaning stands for itself. -/
theorem step_plain (hcase : st.flags.ignoreCase = false) (hc : c ∉ metaCharacters)
    (cs : List Char) : st.step c cs = some (st.push (.char c) cs) := by
  unfold step
  split <;> first | exact absurd (by decide) hc |
    exact congrArg (some <| st.push · cs) (ofAtom_char hcase)

theorem readEscape_meta (f : Flags) (hc : c ∈ metaCharacters) (cs : List Char) :
    readEscape f (c :: cs) = some (.char c, cs) := by
  simp only [metaCharacters, List.mem_cons, List.not_mem_nil, or_false] at hc
  rcases hc with rfl | rfl | rfl | rfl | rfl | rfl | rfl | rfl | rfl | rfl | rfl | rfl | rfl | rfl |
    rfl | rfl | rfl | rfl <;> rfl

/-- Behind a backslash a character with a meaning stands for itself. -/
theorem step_escaped (hcase : st.flags.ignoreCase = false) (hc : c ∈ metaCharacters)
    (cs : List Char) : st.step '\\' (c :: cs) = some (st.push (.char c) cs) := by
  show (readEscape st.flags (c :: cs)).map _ = _
  rw [readEscape_meta _ hc, Option.map_some]
  exact congrArg (some <| st.push · cs) (ofAtom_char hcase)

/-- An escaped text is read one character after the other. -/
theorem finish_escape (hverbose : st.flags.verbose = false) (hcase : st.flags.ignoreCase = false)
    (hrest : st.rest = escape marker ++ rest) :
    finish (fuel + marker.length) st = finish fuel
      { st with rest, items := (marker.map fun c => some (Regex.char c)).reverse ++ st.items } := by
  induction marker generalizing st with
  | nil =>
    rw [escape, List.nil_append] at hrest
    rw [← hrest]
    rfl
  | cons c marker ih =>
    have hstep : ∃ d ds, st.rest = d :: ds ∧
        st.step d ds = some (st.push (.char c) (escape marker ++ rest)) := by
      rw [hrest, escape]
      split
      · next hc => exact ⟨_, _, rfl, step_escaped hcase hc _⟩
      · next hc => exact ⟨_, _, rfl, step_plain hcase hc _⟩
    obtain ⟨d, ds, hfirst, hstep⟩ := hstep
    have hmore := @ih (st.push (.char c) (escape marker ++ rest)) hverbose hcase rfl
    rw [List.length_cons, ← Nat.add_assoc, finish_cons hverbose hfirst hstep, hmore, List.map_cons,
      List.reverse_cons, List.append_assoc]
    rfl

/-- A group opens, unless a question mark says what kind of group it is. -/
theorem readGroup_eq (hverbose : st.flags.verbose = false) (hcs : cs.head? ≠ some '?') :
    st.readGroup cs =
      some ({ st with groups := st.groups + 1 }.openGroup (some (st.groups + 1)) st.flags cs) := by
  rw [readGroup, Flags.skip, hverbose, if_neg Bool.false_ne_true]
  split <;> first | exact absurd rfl hcs | rfl

theorem ofList_map_char (marker : List Char) :
    Regex.ofList (marker.map Regex.char) = .literal marker := by
  induction marker with
  | nil => rfl
  | cons c marker ih => rw [List.map_cons, Regex.ofList, ih, Regex.literal]

/-- An escaped text in a group is read as that text. -/
theorem finish_group (hverbose : st.flags.verbose = false) (hcase : st.flags.ignoreCase = false)
    (hrest : st.rest = '(' :: (escape marker ++ ')' :: rest)) :
    finish (fuel + 2 + marker.length) st = finish fuel
      { st with
        rest
        groups := st.groups + 1
        items := some (.group (st.groups + 1) (.literal marker)) :: st.items } := by
  have hopen : st.step '(' (escape marker ++ ')' :: rest) = _ :=
    readGroup_eq hverbose (head?_escape_append marker _ (by simp))
  have hmarker :=
    @finish_escape ({ st with groups := st.groups + 1 }.openGroup (some (st.groups + 1)) st.flags
    (escape marker ++ ')' :: rest)) (')' :: rest) marker (fuel + 1) hverbose hcase rfl
  rw [show fuel + 2 + marker.length = fuel + 1 + marker.length + 1 by
    omega, finish_cons hverbose hrest hopen, hmarker]
  have hinner : Regex.ofList
      (((marker.map fun c => some (Regex.char c)).reverse ++ []).reverse.filterMap id) =
        .literal marker := by
    rw [List.append_nil, List.reverse_reverse, List.filterMap_map, ← ofList_map_char,
      ← List.filterMap_eq_map]
    rfl
  refine finish_cons hverbose rfl ?_
  exact congrArg (fun r => some ({ st with
    rest
    groups := st.groups + 1
    items := some (.group (st.groups + 1) r) :: st.items } : Reader)) hinner

end Reader

/-! ## The patterns of markers -/

/-- Two patterns that find the same in every text. -/
structure Alike (p q : Pattern) : Prop where
  groups : p.groups = q.groups
  find : ∀ text, p.find text = q.find text

theorem alike_of_run {p q : Pattern} (hgroups : p.groups = q.groups)
    (hrun : ∀ cur (k : Cursor → Groups → Option Match),
      p.regex.run cur [] k = q.regex.run cur [] k) : Alike p q := by
  have hat : ∀ cur, p.matchAt cur = q.matchAt cur := fun cur => hrun cur _
  have hfrom : ∀ (text : List Char) (pos : Nat)
      (last : Option Char), p.findFrom pos last text = q.findFrom pos last text := by
    intro text
    induction text with
    | nil => exact fun _ _ => hat _
    | cons c cs ih => exact fun pos last => by rw [findFrom, findFrom, hat, ih]
  exact ⟨hgroups, fun text => hfrom text 0 none⟩

/-- A text is read as a pattern that finds the same as another, if it is not too large. -/
def Denotes (text : String) (p : Pattern) : Prop :=
  ∃ q, ofText? text = (if q.regex.weight ≤ Regex.maxWeight then some q else none) ∧ Alike q p

/-- The group of a marker is read as the marker, whatever stands in front of it and behind it. -/
theorem denotes_of_marker {text : String} {p : Pattern} {marker front back : List Char} {m n : Nat}
    (st st' : Reader) (htext : text.toList = front ++ '(' :: (escape marker ++ ')' :: back))
    (hm : m ≤ front.length) (hn : n ≤ back.length) (hfront : ∀ fuel,
      Reader.finish (fuel + m) { rest := front ++ '(' :: (escape marker ++ ')' :: back) } =
      Reader.finish fuel { st with rest := '(' :: (escape marker ++ ')' :: back) })
    (hverbose : st.flags.verbose = false) (hcase : st.flags.ignoreCase = false)
    (hback : ∀ fuel, Reader.finish (fuel + (n + 1))
      { st with
        rest := back
        groups := st.groups + 1
        items := some (.group (st.groups + 1) (.literal marker)) :: st.items } = some st')
    (hgroups : st'.groups = p.groups) (hrun : ∀ cur (k : Cursor → Groups → Option Match),
      st'.current.run cur [] k = p.regex.run cur [] k) : Denotes text p := by
  refine ⟨⟨st'.current, st'.groups⟩, ?_, alike_of_run hgroups hrun⟩
  have hlength := length_le_escape marker
  have hfuel : text.toList.length + 1 = front.length - m + (back.length - n) +
      ((escape marker).length - marker.length) + (n + 1) + 2 + marker.length + m := by
    rw [htext, List.length_append, List.length_cons, List.length_append, List.length_cons]
    omega
  have hgroup := @Reader.finish_group { st with rest := '(' :: (escape marker ++ ')' :: back) } back
    marker (front.length - m + (back.length - n) + ((escape marker).length - marker.length) +
      (n + 1)) hverbose hcase rfl
  rw [ofText?, hfuel, htext, hfront, hgroup, hback]
  rfl

theorem denotes_leading (marker : List Char) :
    Denotes ("^(" ++ .ofList (escape marker) ++ ")(\\S+)$") (leading marker) :=
  @denotes_of_marker _ _ marker ['^'] ['(', '\\', 'S', '+', ')', '$'] 1 6
    ⟨[], {}, 0, [], [], [some (.look .textStart)], []⟩
    ⟨[], {}, 2, [], [], [some (.look .textEnd), some (.group 2 (.ofList [nonBlanks])),
      some (.group 1 (.literal marker)), some (.look .textStart)], []⟩
    (by simp [String.toList_append]) (by decide) (by decide) (fun _ => rfl) rfl rfl (fun _ => rfl)
    rfl fun _ _ => rfl

theorem denotes_trailing (marker : List Char) :
    Denotes ("^(\\S+)(" ++ .ofList (escape marker) ++ ")$") (trailing marker) :=
  @denotes_of_marker _ _ marker ['^', '(', '\\', 'S', '+', ')'] ['$'] 5 1
    ⟨[], {}, 1, [], [], [some (.group 1 (.ofList [nonBlanks])), some (.look .textStart)], []⟩
    ⟨[], {}, 2, [], [], [some (.look .textEnd), some (.group 2 (.literal marker)),
      some (.group 1 (.ofList [nonBlanks])), some (.look .textStart)], []⟩
    (by simp [String.toList_append]) (by decide) (by decide) (fun _ => rfl) rfl rfl (fun _ => rfl)
    rfl fun _ _ => rfl

theorem denotes_splitting (marker : List Char) :
    Denotes ("(?s)^(.*)(" ++ .ofList (escape marker) ++ ")(.*)$") (splitting marker) :=
  @denotes_of_marker _ _ marker ['(', '?', 's', ')', '^', '(', '.', '*', ')']
    ['(', '.', '*', ')', '$'] 6 5
    ⟨[], { dotAll := true }, 1, [], [],
      [some (.group 1 (.ofList [anything])), some (.look .textStart), none], []⟩ ⟨[],
      { dotAll := true }, 3, [], [], [some (.look .textEnd), some (.group 3 (.ofList [anything])),
      some (.group 2 (.literal marker)), some (.group 1 (.ofList [anything])),
      some (.look .textStart), none], []⟩
    (by simp [String.toList_append]) (by decide) (by decide) (fun _ => rfl) rfl rfl (fun _ => rfl)
    rfl fun _ _ => rfl

theorem denotes_between (marker : List Char) :
    Denotes ("^(\\S+)(" ++ .ofList (escape marker) ++ ")(\\S+)$") (between marker) :=
  @denotes_of_marker _ _ marker ['^', '(', '\\', 'S', '+', ')'] ['(', '\\', 'S', '+', ')', '$'] 5 6
    ⟨[], {}, 1, [], [], [some (.group 1 (.ofList [nonBlanks])), some (.look .textStart)], []⟩
    ⟨[], {}, 3, [], [], [some (.look .textEnd), some (.group 3 (.ofList [nonBlanks])),
      some (.group 2 (.literal marker)), some (.group 1 (.ofList [nonBlanks])),
      some (.look .textStart)], []⟩
    (by simp [String.toList_append]) (by decide) (by decide) (fun _ => rfl) rfl rfl (fun _ => rfl)
    rfl fun _ _ => rfl

end Pattern

/-! ## What is found -/

namespace TokenKind

variable {marker : String} {tight : Bool} {text rest : List Char}

open Pattern in
theorem remainingRight?_eq_some_iff : (leading marker).remainingRight? text = some rest ↔
    text = marker.toList ++ rest ∧ rest ≠ [] ∧ Spaceless rest := by
  constructor
  · intro h
    obtain ⟨m, hfind, hm⟩ := Option.bind_eq_some_iff.mp h
    obtain ⟨rest', hne, hspaceless, htext, hrest⟩ := exists_of_find_leading hfind
    obtain rfl := Option.some.inj (hrest.symm.trans hm)
    exact ⟨htext, hne, hspaceless⟩
  · rintro ⟨rfl, hne, hspaceless⟩
    obtain ⟨m, hfind⟩ := Option.isSome_iff_exists.mp (accepts_leading marker.toList hne hspaceless)
    obtain ⟨rest', -, -, htext, hrest⟩ := exists_of_find_leading hfind
    rw [remainingRight?, hfind, Option.bind_some, hrest, List.append_cancel_left htext]

open Pattern in
theorem remainingLeft?_eq_some_iff : (trailing marker).remainingLeft? text = some rest ↔
    text = rest ++ marker.toList ∧ rest ≠ [] ∧ Spaceless rest := by
  constructor
  · intro h
    obtain ⟨m, hfind, hm⟩ := Option.bind_eq_some_iff.mp h
    obtain ⟨rest', hne, hspaceless, htext, hrest⟩ := exists_of_find_trailing hfind
    obtain rfl := Option.some.inj (hrest.symm.trans hm)
    exact ⟨htext, hne, hspaceless⟩
  · rintro ⟨rfl, hne, hspaceless⟩
    obtain ⟨m, hfind⟩ := Option.isSome_iff_exists.mp (accepts_trailing marker.toList hne hspaceless)
    obtain ⟨rest', -, -, htext, hrest⟩ := exists_of_find_trailing hfind
    rw [remainingLeft?, hfind, Option.bind_some, hrest, List.append_cancel_right htext]

/-- A separating marker splits a text at its last occurrence. -/
theorem splitGroups?_eq_some_iff {groups : List (Option (List Char))} :
    (separator marker tight).splitGroups? text = some groups ↔ ∃ left right,
      LastOccurrence marker.toList text left right ∧
      groups = [some text, some left, some marker.toList, some right] := by
  have hgroups : ∀ {m : Match} {left right : List Char}, m.text? text 0 = some text →
      m.text? text 1 = some left → m.text? text 2 = some marker.toList →
      m.text? text 3 = some right →
      (List.range 4).map (m.text? text) = [some text, some left, some marker.toList,
        some right] := by
    intro m left right hzero hone htwo hthree
    rw [← hzero, ← hone, ← htwo, ← hthree]
    rfl
  constructor
  · intro h
    obtain ⟨m, hfind, rfl⟩ := Option.map_eq_some_iff.mp h
    obtain ⟨left, right, hlast, hzero, hone, htwo, hthree⟩ := Pattern.lastOccurrence_of_find hfind
    exact ⟨left, right, hlast, hgroups hzero hone htwo hthree⟩
  · rintro ⟨left, right, hlast, rfl⟩
    have haccepts := Pattern.accepts_splitting left marker.toList right
    rw [← hlast.text_eq] at haccepts
    obtain ⟨m, hfind⟩ := Option.isSome_iff_exists.mp haccepts
    obtain ⟨left', right', hlast', hzero, hone, htwo, hthree⟩ :=
      Pattern.lastOccurrence_of_find hfind
    obtain ⟨rfl, rfl⟩ := hlast.unique hlast'
    exact Option.map_eq_some_iff.mpr ⟨m, hfind, hgroups hzero hone htwo hthree⟩

/-- A separating marker splits the texts in which it occurs. -/
theorem isSome_splitGroups?_iff : ((separator marker tight).splitGroups? text).isSome ↔
    marker.toList <:+: text := by
  constructor
  · intro h
    obtain ⟨groups, hgroups⟩ := Option.isSome_iff_exists.mp h
    obtain ⟨left, right, hlast, -⟩ := splitGroups?_eq_some_iff.mp hgroups
    exact ⟨left, right, hlast.text_eq.symm⟩
  · rintro ⟨left, right, rfl⟩
    exact Option.isSome_map.trans (Pattern.accepts_splitting left marker.toList right)

open Pattern in
/-- A marker is taken literally, whatever characters it consists of: it is split off in front of
text without white space or behind it, or at its last occurrence in any text; and the patterns that
do so are those that are put together from the escaped marker. -/
theorem marker_taken_literally (marker : String) (text : List Char) :
    (∀ rest, (leading marker).remainingRight? text = some rest ↔
      text = marker.toList ++ rest ∧ rest ≠ [] ∧ Spaceless rest) ∧
    (∀ rest, (trailing marker).remainingLeft? text = some rest ↔
      text = rest ++ marker.toList ∧ rest ≠ [] ∧ Spaceless rest) ∧
    (∀ tight, ((separator marker tight).splitGroups? text).isSome ↔ marker.toList <:+: text) ∧
    (∀ tight groups, (separator marker tight).splitGroups? text = some groups ↔
      ∃ left right, LastOccurrence marker.toList text left right ∧
        groups = [some text, some left, some marker.toList, some right]) ∧
    Denotes ("^(" ++ .ofList (escape marker.toList) ++ ")(\\S+)$")
      (Pattern.leading marker.toList) ∧
    Denotes ("^(\\S+)(" ++ .ofList (escape marker.toList) ++ ")$")
      (Pattern.trailing marker.toList) ∧
    Denotes ("(?s)^(.*)(" ++ .ofList (escape marker.toList) ++ ")(.*)$")
      (splitting marker.toList) ∧
    Denotes ("^(\\S+)(" ++ .ofList (escape marker.toList) ++ ")(\\S+)$")
      (between marker.toList) :=
  ⟨fun _ => remainingRight?_eq_some_iff, fun _ => remainingLeft?_eq_some_iff,
    fun _ => isSome_splitGroups?_iff, fun _ _ => splitGroups?_eq_some_iff, denotes_leading _,
    denotes_trailing _, denotes_splitting _, denotes_between _⟩

example : (leading "$.").remainingRight? "$.x".toList = some ['x'] := by decide

end TokenKind

end GrammarGraph
